import Mai.BaseAlign

/-!
# Stack slots

`StackSpaceAllocator` (`lang/stable-space-builder.h`) places the primitive values and the references
of a function in spans of sixteen bytes, each of one kind, and keeps the kinds in a bitmap. The two
kinds have a level each, which skips the spans of the other kind. The frame scan
(`lang/coroutine.cc`) visits the marked spans up to the level of references. Levels have no bound
here; the `int`s of the code are the same as long as the spans take less than 2 GiB.
-/
namespace Mai.LangStackSpace

open BaseAlign Function List Option

structure Slot where
  start : ℕ
  size : ℕ

structure Scope where
  saved : Bool → ℕ
  slots : Bool → List Slot

structure Allocator where
  bitmap : ℕ → Bool
  level : Bool → ℕ
  maxSpans : ℕ
  scopes : List Scope

def new : Allocator := ⟨fun _ => false, fun _ => 0, 0, [⟨fun _ => 0, fun _ => []⟩]⟩

namespace Allocator

def test (s : Allocator) (level : ℕ) : Option Bool :=
  if level / 16 / 32 < (s.maxSpans + 31) / 32 then some (s.bitmap (level / 16)) else none

def advanceSpan (s : Allocator) (k : Bool) : Allocator where
  bitmap := if k then update s.bitmap s.maxSpans true else s.bitmap
  level := update s.level k (16 * s.maxSpans)
  maxSpans := s.maxSpans + 1
  scopes := s.scopes

/-- The loops of `Reserve` and `ReserveRef` over the spans of the other kind. -/
def skipForward (s : Allocator) (k : Bool) : ℕ → ℕ → Option ℕ
  | 0, level => some level
  | fuel + 1, level => (s.test level).bind fun bit =>
    if bit = !k ∧ level < 16 * s.maxSpans then skipForward s k fuel (level + 16) else some level

def skipBack (s : Allocator) (k : Bool) : ℕ → ℕ → Option ℕ
  | 0, level => some level
  | fuel + 1, level =>
    if 16 ≤ level then
      (s.test (level - 1)).bind fun bit =>
        if bit = !k then skipBack s k fuel (level - 16) else some level
    else some level

def setLevel (s : Allocator) (k : Bool) (level : ℕ) : Allocator :=
  { s with level := update s.level k level }

def setSlots (s : Allocator) (k : Bool) (f : List Slot → List Slot) : Allocator :=
  match s.scopes with
  | [] => s
  | scope :: scopes =>
    { s with scopes := ⟨scope.saved, update scope.slots k (f (scope.slots k))⟩ :: scopes }

/-- `Reserve` of a rounded size, and `ReserveRef` with the size of a pointer. -/
def reserve (s : Allocator) (k : Bool) (request : ℕ) : Option Allocator :=
  let s := if s.maxSpans = 0 then s.advanceSpan false else s
  (s.skipForward k (s.maxSpans + 1) (s.level k)).map fun level =>
    let s := s.setLevel k level
    let s := if 16 * s.maxSpans ≤ level ∨ 16 < level % 16 + request then s.advanceSpan k else s
    (s.setLevel k (s.level k + request)).setSlots k (⟨s.level k, request⟩ :: ·)

def fallback (s : Allocator) (k : Bool) : Option Allocator :=
  match s.scopes with
  | ⟨_, slots⟩ :: _ =>
    match slots k with
    | [] => some s
    | slot :: _ =>
      -- only `Fallback` takes the level from the slot
      let level := if k then s.level k else min (s.level k) (slot.start + slot.size)
      (s.skipBack k (level / 16 + 1) (level - slot.size)).map fun level =>
        (s.setLevel k level).setSlots k List.tail
  | [] => some s

def enter (s : Allocator) : Allocator := { s with scopes := ⟨s.level, fun _ => []⟩ :: s.scopes }

def exit (s : Allocator) : Allocator :=
  match s.scopes with
  | scope :: outer :: scopes => { s with level := scope.saved, scopes := outer :: scopes }
  | _ => s

end Allocator

inductive Op
  | reserve (size : ℕ) (hpos : 0 < size) (hle : size ≤ 16)
  | reserveRef
  | fallback
  | fallbackRef
  | enterScope
  | exitScope

def step (s : Allocator) : Op → Option Allocator
  | .reserve size _ _ => s.reserve false (roundUp size 4)
  | .reserveRef => s.reserve true kPointerSize
  | .fallback => s.fallback false
  | .fallbackRef => s.fallback true
  | .enterScope => some s.enter
  | .exitScope => some s.exit

def run (s : Allocator) : List Op → Option Allocator
  | [] => some s
  | op :: ops => (step s op).bind fun t => run t ops

/-- The loop of `VisitBytecodeFunctionStackFrame` over the local variables: the offsets of the words
it visits. -/
def scan (bitmap : ℕ → Bool) (top : ℕ) : ℕ → ℕ → List ℕ
  | 0, _ => []
  | fuel + 1, offset =>
    if offset < top then
      if bitmap (offset / 16) then offset :: scan bitmap top fuel (offset + 8)
      else scan bitmap top fuel (offset + 16)
    else []

def Allocator.live (s : Allocator) (k : Bool) : List Slot :=
  s.scopes.flatMap fun scope => scope.slots k

def Apart (x y : Slot) : Prop := x.start + x.size ≤ y.start ∨ y.start + y.size ≤ x.start

structure Placed (s : Allocator) : Prop where
  disjoint : (s.live false ++ s.live true).Pairwise Apart
  below : ∀ k, ∀ x ∈ s.live k, x.start + x.size ≤ 16 * s.maxSpans
  typed : ∀ k, ∀ x ∈ s.live k, ∀ o, x.start ≤ o → o < x.start + x.size → s.bitmap (o / 16) = k

/-- The scan tests bits of spans only, visits every reference and touches no primitive value. -/
structure Scanned (bitmap : ℕ → Bool) (s : Allocator) : Prop where
  inside : ∀ o < s.level true, o / 16 < s.maxSpans
  references : ∀ x ∈ s.live true, x.start ∈ scan bitmap (s.level true) (s.level true) 0
  primitives : ∀ x ∈ s.live false, ∀ o ∈ scan bitmap (s.level true) (s.level true) 0,
    Apart x ⟨o, kPointerSize⟩

/-- The loop of `Reserve` or `ReserveRef` ends before the first bit behind a full word. -/
def Ends (s : Allocator) (k : Bool) : Prop :=
  s.maxSpans % 32 = 0 → s.maxSpans ≠ 0 → ∃ i, s.level k / 16 ≤ i ∧ i < s.maxSpans ∧ s.bitmap i = k

def Careful (s : Allocator) : Op → Prop
  | .reserve _ _ _ => Ends s false
  | .reserveRef => Ends s true
  | _ => True

def Heeds (s : Allocator) : List Op → Prop
  | [] => True
  | op :: ops => Careful s op ∧ ∀ t, step s op = some t → Heeds t ops

section Levels

variable {s t : Allocator} {k : Bool} {a b : ℕ}

def topEnd : List Slot → ℕ
  | [] => 0
  | x :: _ => x.start + x.size

def Leads (s : Allocator) (k : Bool) (a b : ℕ) : Prop :=
  b = a ∨ (16 ∣ a ∧ 16 ∣ b ∧ a ≤ b ∧ ∀ i, a / 16 ≤ i → i < b / 16 → s.bitmap i = !k)

lemma Leads.le (h : Leads s k a b) : a ≤ b := by
  rcases h with rfl | ⟨-, -, hle, -⟩
  · exact le_rfl
  · exact hle

def Level (s : Allocator) (k : Bool) (a : ℕ) : Prop :=
  a ≤ 16 * s.maxSpans ∧ (a % 16 = 0 ∨ s.bitmap (a / 16) = k)

lemma test_eq_some (h : a / 16 < s.maxSpans) : s.test a = some (s.bitmap (a / 16)) :=
  if_pos (by omega)

lemma skipForward_spec {fuel : ℕ} (hlevel : Level s k a) (hfuel : s.maxSpans < a / 16 + fuel)
    (hends : s.maxSpans % 32 = 0 → ∃ i, a / 16 ≤ i ∧ i < s.maxSpans ∧ s.bitmap i = k) :
    ∃ b, s.skipForward k fuel a = some b ∧ b ≤ 16 * s.maxSpans ∧
      (b < 16 * s.maxSpans → s.bitmap (b / 16) = k)
      ∧ Leads s k a b := by
  induction fuel generalizing a with
  | zero =>
    have := hlevel.1
    omega
  | succ fuel ih =>
    have htest : s.test a = some (s.bitmap (a / 16)) := by
      refine if_pos ?_
      have := hlevel.1
      rcases Nat.eq_zero_or_pos (s.maxSpans % 32) with hzero | hpos
      · obtain ⟨i, hi⟩ := hends hzero
        omega
      · omega
    rw [Allocator.skipForward, htest, bind_some]
    by_cases hskip : s.bitmap (a / 16) = !k ∧ a < 16 * s.maxSpans
    · rw [if_pos hskip]
      have hne : s.bitmap (a / 16) ≠ k := by simp [hskip.1]
      have hmod : a % 16 = 0 := hlevel.2.resolve_right hne
      have hdiv : (a + 16) / 16 = a / 16 + 1 := by omega
      obtain ⟨b, hb, hle, hkind, hleads⟩ :=
        ih (a := a + 16) ⟨by omega, .inl (by omega)⟩ (by omega) fun hzero => by
        obtain ⟨i, hi, hlt, hk⟩ := hends hzero
        refine ⟨i, ?_, hlt, hk⟩
        have : i ≠ a / 16 := fun h => hne (h ▸ hk)
        omega
      refine ⟨b, hb, hle, hkind,
        .inr ⟨by omega, ?_, by have := hleads.le; omega, fun i hi hlt => ?_⟩⟩
      · rcases hleads with rfl | ⟨-, h, -⟩
        · omega
        · exact h
      · rcases Nat.eq_or_lt_of_le hi with rfl | hi
        · exact hskip.1
        · rcases hleads with rfl | ⟨-, -, -, h⟩
          · omega
          · exact h i (by omega) hlt
    · rw [if_neg hskip]
      refine ⟨a, rfl, hlevel.1, fun hlt => ?_, .inl rfl⟩
      by_contra hne
      exact hskip ⟨by cases hbit : s.bitmap (a / 16) <;> cases k <;> simp_all, hlt⟩

lemma skipBack_spec (fuel : ℕ) (hlevel : Level s k b) (hfuel : b / 16 < fuel) (hle : a ≤ b)
    (hend : a = 0 ∨ s.bitmap ((a - 1) / 16) = k) :
    ∃ c, s.skipBack k fuel b = some c ∧ Level s k c ∧ a ≤ c ∧ (Leads s k a b → c = a) := by
  induction fuel generalizing b with
  | zero => omega
  | succ fuel ih =>
    rw [Allocator.skipBack]
    by_cases hlow : 16 ≤ b
    · have hlt : (b - 1) / 16 < s.maxSpans := by
        have := hlevel.1
        omega
      rw [if_pos hlow, test_eq_some hlt, bind_some]
      by_cases hskip : s.bitmap ((b - 1) / 16) = !k
      · rw [if_pos hskip]
        have hne : ∀ i, i = (b - 1) / 16 → s.bitmap i ≠ k := fun i hi => by simp [hi, hskip]
        have hmod : b % 16 = 0 := by
          by_contra hmod
          exact hne (b / 16) (by omega) (hlevel.2.resolve_left hmod)
        have hle' : a ≤ b - 16 := by
          rcases hend with rfl | hend
          · omega
          · have := hne ((a - 1) / 16)
            by_contra hgt
            exact this (by omega) hend
        obtain ⟨c, hc, hlevel', hac, hleads⟩ :=
          ih (b := b - 16) ⟨by have := hlevel.1; omega, .inl (by omega)⟩ (by omega) hle'
        refine ⟨c, hc, hlevel', hac, fun h => hleads ?_⟩
        rcases h with rfl | ⟨h16, -, -, hspans⟩
        · omega
        · exact .inr ⟨h16, by omega, hle', fun i hi hlt => hspans i hi (by omega)⟩
      · rw [if_neg hskip]
        refine ⟨b, rfl, hlevel, hle, fun h => ?_⟩
        rcases h with h | ⟨-, h16, -, hspans⟩
        · exact h
        · by_contra hne
          have := hspans ((b - 1) / 16) (by omega) (by omega)
          exact hskip this
    · rw [if_neg hlow]
      refine ⟨b, rfl, hlevel, hle, fun h => ?_⟩
      rcases h with h | ⟨-, h16, -, -⟩
      · exact h
      · omega

end Levels

section Invariant

variable {s t : Allocator} {k : Bool} {a b : ℕ} {x : Slot} {xs : List Slot} {outer : List Scope}

structure Fits (s : Allocator) (k : Bool) (x : Slot) : Prop where
  pos : 0 < x.size
  inside : x.start % 16 + x.size ≤ 16
  span_lt : x.start / 16 < s.maxSpans
  kind : s.bitmap (x.start / 16) = k
  pointer : k = true → x.size = kPointerSize ∧ x.start % 8 = 0

def Chain (s : Allocator) (k : Bool) : List Slot → Prop
  | [] => True
  | x :: xs => Fits s k x ∧ topEnd xs ≤ x.start ∧ (k = true → Leads s true (topEnd xs) x.start) ∧
      Chain s k xs

def Behind (s : Allocator) (k : Bool) (a : ℕ) (xs : List Slot) : Prop :=
  Level s k a ∧ topEnd xs ≤ a ∧ (k = true → a = topEnd xs)

def slotsOf (scopes : List Scope) (k : Bool) : List Slot :=
  scopes.flatMap fun scope => scope.slots k

def Saved (s : Allocator) : List Scope → Prop
  | [] => True
  | scope :: outer => (∀ k, Behind s k (scope.saved k) (slotsOf outer k)) ∧ Saved s outer

structure Inv (s : Allocator) : Prop where
  beyond : ∀ i, s.maxSpans ≤ i → s.bitmap i = false
  chain : ∀ k, Chain s k (slotsOf s.scopes k)
  level : ∀ k, Behind s k (s.level k) (slotsOf s.scopes k)
  saved : Saved s s.scopes
  nonempty : s.scopes ≠ []

structure Extends (s t : Allocator) : Prop where
  kinds : ∀ i < s.maxSpans, t.bitmap i = s.bitmap i
  le : s.maxSpans ≤ t.maxSpans

lemma Extends.refl (s : Allocator) : Extends s s := ⟨fun _ _ => rfl, le_rfl⟩

lemma Extends.trans {u : Allocator} (h : Extends s t) (g : Extends t u) : Extends s u :=
  ⟨fun i hi => (g.kinds i (hi.trans_le h.le)).trans (h.kinds i hi), h.le.trans g.le⟩

lemma Level.extend (h : Level s k a) (he : Extends s t) : Level t k a := by
  have := he.le
  refine ⟨h.1.trans (by omega), ?_⟩
  rcases Nat.eq_zero_or_pos (a % 16) with hmod | hmod
  · exact .inl hmod
  · have := h.1
    exact .inr ((he.kinds _ (by omega)).trans (h.2.resolve_left hmod.ne'))

lemma Leads.extend (h : Leads s k a b) (hb : b ≤ 16 * s.maxSpans) (he : Extends s t) :
    Leads t k a b := by
  rcases h with rfl | ⟨ha, h16, hle, hspans⟩
  · exact .inl rfl
  · exact .inr ⟨ha, h16, hle, fun i hi hlt => (he.kinds i (by omega)).trans (hspans i hi hlt)⟩

lemma Fits.extend (h : Fits s k x) (he : Extends s t) : Fits t k x :=
  ⟨h.pos, h.inside, h.span_lt.trans_le he.le, (he.kinds _ h.span_lt).trans h.kind, h.pointer⟩

lemma Chain.extend (he : Extends s t) : ∀ {xs : List Slot}, Chain s k xs → Chain t k xs
  | [], _ => trivial
  | x :: xs, ⟨hx, hle, hleads, hxs⟩ =>
    ⟨hx.extend he, hle, fun hk => (hleads hk).extend (by have := hx.span_lt; omega) he,
      hxs.extend he⟩

lemma Behind.extend (h : Behind s k a xs) (he : Extends s t) : Behind t k a xs :=
  ⟨h.1.extend he, h.2⟩

lemma Saved.extend (he : Extends s t) : ∀ {scopes : List Scope}, Saved s scopes → Saved t scopes
  | [], _ => trivial
  | _ :: _, ⟨h, hs⟩ => ⟨fun k => (h k).extend he, hs.extend he⟩

lemma inv_new : Inv new :=
  ⟨fun _ _ => rfl, fun _ => trivial, fun _ => ⟨⟨le_rfl, .inl rfl⟩, le_rfl, fun _ => rfl⟩,
    ⟨fun _ => ⟨⟨le_rfl, .inl rfl⟩, le_rfl, fun _ => rfl⟩, trivial⟩, cons_ne_nil _ _⟩

lemma advanceSpan_level (s : Allocator) (k k' : Bool) :
    (s.advanceSpan k).level k' = if k' = k then 16 * s.maxSpans else s.level k' := update_apply ..

lemma advanceSpan_extends (hbeyond : ∀ i, s.maxSpans ≤ i → s.bitmap i = false) (k : Bool) :
    Extends s (s.advanceSpan k) ∧ (∀ i, s.maxSpans + 1 ≤ i → (s.advanceSpan k).bitmap i = false)
      ∧ (s.advanceSpan k).bitmap s.maxSpans = k := by
  cases k with
  | false => exact ⟨⟨fun _ _ => rfl, Nat.le_succ _⟩, fun i hi => hbeyond i (by omega),
      hbeyond _ le_rfl⟩
  | true =>
    refine ⟨⟨fun i hi => update_of_ne hi.ne _ _, Nat.le_succ _⟩, fun i hi => ?_, update_self ..⟩
    exact (update_of_ne (by omega) _ _).trans (hbeyond i (by omega))

lemma inv_first (h : Inv s) :
    ∃ t, (if s.maxSpans = 0 then s.advanceSpan false else s) = t ∧ Inv t ∧ Extends s t
    ∧ 0 < t.maxSpans ∧ (Ends s k → Ends t k) := by
  by_cases hzero : s.maxSpans = 0
  · obtain ⟨he, hbeyond, -⟩ := advanceSpan_extends h.beyond false
    have hlevel : ∀ k, (s.advanceSpan false).level k = s.level k := fun k => by
      have := (h.level false).1.1
      rw [advanceSpan_level]
      split_ifs with hk
      · rw [hk]
        omega
      · rfl
    refine ⟨_, if_pos hzero,
      ⟨hbeyond, fun k => (h.chain k).extend he, fun k => ?_, h.saved.extend he, h.nonempty⟩, he,
      Nat.succ_pos _, fun _ hmod _ => ?_⟩
    · rw [hlevel]
      exact (h.level k).extend he
    · have hone : (s.advanceSpan false).maxSpans = s.maxSpans + 1 := rfl
      omega
  · exact ⟨_, if_neg hzero, h, .refl s, Nat.pos_of_ne_zero hzero, id⟩

structure Changed (s t : Allocator) (k : Bool) (a : ℕ) (slots : List Slot) (outer : List Scope) :
    Prop where
  bitmap : t.bitmap = s.bitmap
  maxSpans : t.maxSpans = s.maxSpans
  level : t.level = update s.level k a
  slots : slotsOf t.scopes k = slots ++ slotsOf outer k
  others : ∀ k' ≠ k, slotsOf t.scopes k' = slotsOf s.scopes k'
  saved : Saved s s.scopes → Saved s t.scopes
  nonempty : t.scopes ≠ []

lemma changed {scope : Scope} (hs : s.scopes = scope :: outer) (k : Bool) (a : ℕ)
    (f : List Slot → List Slot) :
    Changed s ((s.setLevel k a).setSlots k f) k a (f (scope.slots k)) outer := by
  have hset : (s.setLevel k a).setSlots k f = ⟨s.bitmap, update s.level k a, s.maxSpans,
      ⟨scope.saved, update scope.slots k (f (scope.slots k))⟩ :: outer⟩ := by
    simp [Allocator.setSlots, Allocator.setLevel, hs]
  rw [hset]
  refine ⟨rfl, rfl, rfl, ?_, fun k' hk' => ?_, fun h => ?_, cons_ne_nil _ _⟩
  · simp [slotsOf]
  · simp [slotsOf, hs, update_of_ne hk']
  · rw [hs] at h
    exact h

lemma set_extends (hs : s.scopes ≠ []) (k : Bool) (a : ℕ) (f : List Slot → List Slot) :
    Extends s ((s.setLevel k a).setSlots k f) := by
  obtain ⟨scope, outer, hs⟩ := exists_cons_of_ne_nil hs
  have hc := changed hs k a f
  exact ⟨fun i _ => by rw [hc.bitmap], hc.maxSpans.ge⟩

lemma Changed.inv {u : Allocator} {slots : List Slot} (hc : Changed t u k a slots outer)
    (h : Inv s) (he : Extends s t) (hscopes : t.scopes = s.scopes)
    (hlevel : ∀ k' ≠ k, t.level k' = s.level k') (hbeyond : ∀ i, t.maxSpans ≤ i →
      t.bitmap i = false) (hchain : Chain t k (slots ++ slotsOf outer k))
    (hbehind : Behind t k a (slots ++ slotsOf outer k)) : Inv u := by
  have hu : Extends t u := ⟨fun i _ => by rw [hc.bitmap], hc.maxSpans.ge⟩
  refine ⟨fun i hi => ?_, fun k' => ?_, fun k' => ?_, (hc.saved ?_).extend hu, hc.nonempty⟩
  · rw [hc.bitmap]
    exact hbeyond i (hc.maxSpans ▸ hi)
  · by_cases hk' : k' = k
    · rw [hk', hc.slots]
      exact hchain.extend hu
    · rw [hc.others k' hk', hscopes]
      exact (h.chain k').extend (he.trans hu)
  · by_cases hk' : k' = k
    · rw [hk', hc.slots, hc.level, update_self]
      exact hbehind.extend hu
    · rw [hc.others k' hk', hscopes, hc.level, update_of_ne hk', hlevel k' hk']
      exact (h.level k').extend (he.trans hu)
  · rw [hscopes]
    exact h.saved.extend he

lemma inv_push (h : Inv s) (he : Extends s t) (hscopes : t.scopes = s.scopes)
    (hlevel : ∀ k' ≠ k, t.level k' = s.level k')
    (hbeyond : ∀ i, t.maxSpans ≤ i → t.bitmap i = false) (hx : Fits t k x)
    (hle : s.level k ≤ x.start) (hleads : k = true → Leads t true (s.level k) x.start) :
    Inv ((t.setLevel k (x.start + x.size)).setSlots k (x :: ·)) := by
  obtain ⟨scope, outer, hs⟩ := exists_cons_of_ne_nil h.nonempty
  have hslots : slotsOf s.scopes k = scope.slots k ++ slotsOf outer k := by rw [hs]; rfl
  have hchain := (h.chain k).extend he
  obtain ⟨-, htop, hexact⟩ := h.level k
  rw [hslots] at hchain htop hexact
  refine (changed (hscopes.trans hs) k _ _).inv h he hscopes hlevel hbeyond
    ⟨hx, htop.trans hle, fun hk => hexact hk ▸ hleads hk, hchain⟩ ⟨⟨?_, ?_⟩, le_rfl, fun _ => rfl⟩
  · have := hx.span_lt
    have := hx.inside
    omega
  · have := hx.inside
    rcases Nat.eq_or_lt_of_le this with heq | hlt
    · exact .inl (by omega)
    · have hspan : (x.start + x.size) / 16 = x.start / 16 := by omega
      exact .inr (hspan ▸ hx.kind)

lemma inv_pop (h : Inv s) {scope : Scope} (hs : s.scopes = scope :: outer)
    (hslots : scope.slots k = x :: xs) (hb : Behind s k b (xs ++ slotsOf outer k)) :
    Inv ((s.setLevel k b).setSlots k List.tail) := by
  have hchain := h.chain k
  have hall : slotsOf s.scopes k = x :: (xs ++ slotsOf outer k) := by
    rw [hs]
    exact congrArg (· ++ slotsOf outer k) hslots
  rw [hall] at hchain
  have hc := changed hs k b List.tail
  rw [hslots] at hc
  exact hc.inv h (.refl s) rfl (fun _ _ => rfl) h.beyond hchain.2.2.2 hb

lemma topEnd_kind (h : Chain s k xs) : topEnd xs = 0 ∨ s.bitmap ((topEnd xs - 1) / 16) = k := by
  cases xs with
  | nil => exact .inl rfl
  | cons x xs =>
    obtain ⟨hpos, hinside, -, hkind, -⟩ := h.1
    have hspan : (x.start + x.size - 1) / 16 = x.start / 16 := by omega
    exact .inr (by rw [topEnd, hspan, hkind])

lemma skipped_mod (h : Inv s) (hleads : Leads s true (s.level true) a) : a % 8 = 0 := by
  have htop : s.level true % 8 = 0 := by
    have hchain := h.chain true
    rw [(h.level true).2.2 rfl]
    cases hxs : slotsOf s.scopes true with
    | nil => rfl
    | cons x xs =>
      rw [hxs] at hchain
      obtain ⟨hsize, hmod⟩ := hchain.1.pointer rfl
      rw [kPointerSize] at hsize
      rw [topEnd]
      omega
  rcases hleads with rfl | ⟨-, h16, -, -⟩
  · exact htop
  · omega

lemma inv_reserve {request : ℕ} (h : Inv s) (hends : Ends s k) (hpos : 0 < request)
    (hle : request ≤ 16) (hk : k = true → request = kPointerSize) :
    ∃ t, s.reserve k request = some t ∧ Inv t ∧ Extends s t := by
  obtain ⟨t, ht, hinv, he, hmax, hfirst⟩ := inv_first (k := k) h
  obtain ⟨b, hskip, hb, hkind, hleads⟩ :=
    skipForward_spec (hinv.level k).1 (show t.maxSpans < _ + (t.maxSpans + 1) by omega)
    fun hzero => hfirst hends hzero hmax.ne'
  have hmod : k = true → b % 8 = 0 := fun hk => by subst hk; exact skipped_mod hinv hleads
  have hlevel : ∀ k' ≠ k, (t.setLevel k b).level k' = t.level k' :=
    fun k' hk' => update_of_ne hk' _ _
  have hself : (t.setLevel k b).level k = b := update_self ..
  have hsame : Extends t (t.setLevel k b) := ⟨fun _ _ => rfl, le_rfl⟩
  rw [Allocator.reserve, ht]
  simp only [hskip, map_some, Option.some.injEq, exists_eq_left']
  by_cases hfull : 16 * (t.setLevel k b).maxSpans ≤ b ∨ 16 < b % 16 + request
  · obtain ⟨hnext, hbeyond, hbit⟩ := advanceSpan_extends (s := t.setLevel k b) hinv.beyond k
    have hstart : ((t.setLevel k b).advanceSpan k).level k = 16 * t.maxSpans :=
      (advanceSpan_level ..).trans (if_pos rfl)
    have hdiv : 16 * t.maxSpans / 16 = t.maxSpans := by omega
    have hfits : Fits ((t.setLevel k b).advanceSpan k) k ⟨16 * t.maxSpans, request⟩ :=
      ⟨hpos, by dsimp only; omega, hdiv.trans_lt (Nat.lt_succ_self _), (congrArg _ hdiv).trans hbit,
        fun h => ⟨hk h, by dsimp only; omega⟩⟩
    rw [if_pos hfull, hstart]
    refine ⟨inv_push hinv (hsame.trans hnext) rfl (fun k' hk' => ?_) hbeyond hfits
      (hleads.le.trans hb) fun h => ?_,
      he.trans ((hsame.trans hnext).trans
      (set_extends (show ((t.setLevel k b).advanceSpan k).scopes ≠ [] from hinv.nonempty) ..))⟩
    · rw [advanceSpan_level, if_neg hk', hlevel k' hk']
    · subst h
      have := hmod rfl
      have := hk rfl
      have hspans : (t.setLevel true b).maxSpans = t.maxSpans := rfl
      rw [kPointerSize] at this
      obtain rfl : b = 16 * t.maxSpans := by omega
      exact hleads.extend le_rfl (hsame.trans hnext)
  · rw [not_or, not_le, not_lt] at hfull
    have hfits : Fits (t.setLevel k b) k ⟨b, request⟩ :=
      ⟨hpos, hfull.2, show b / 16 < t.maxSpans from Nat.div_lt_of_lt_mul hfull.1, hkind hfull.1,
        fun h => ⟨hk h, hmod h⟩⟩
    rw [if_neg (by omega), hself]
    refine ⟨inv_push hinv hsame rfl hlevel hinv.beyond hfits hleads.le fun h => ?_,
      he.trans (hsame.trans
        (set_extends (show (t.setLevel k b).scopes ≠ [] from hinv.nonempty) ..))⟩
    subst h
    exact hleads.extend hb hsame

lemma inv_fallback (h : Inv s) (k : Bool) : ∃ t, s.fallback k = some t ∧ Inv t ∧ Extends s t := by
  obtain ⟨scope, outer, hs⟩ := exists_cons_of_ne_nil h.nonempty
  cases hslots : scope.slots k with
  | nil => exact ⟨s, by simp [Allocator.fallback, hs, hslots], h, .refl s⟩
  | cons x xs =>
    have hchain := h.chain k
    obtain ⟨-, htop, hexact⟩ := h.level k
    have hall : slotsOf s.scopes k = x :: (xs ++ slotsOf outer k) := by
      rw [hs]
      exact congrArg (· ++ slotsOf outer k) hslots
    rw [hall] at hchain htop hexact
    obtain ⟨hx, hle, hleads, hrest⟩ := hchain
    have hlevel : (if k then s.level k else min (s.level k) (x.start + x.size)) =
        x.start + x.size := by
      cases k with
      | false => exact min_eq_right htop
      | true => exact hexact rfl
    obtain ⟨c, hc, hclevel, hac, hback⟩ := skipBack_spec ((x.start + x.size) / 16 + 1)
      (show Level s k x.start from ⟨by have := hx.span_lt; omega, .inr hx.kind⟩) (by omega) hle
        (topEnd_kind hrest)
    refine ⟨_, ?_, inv_pop h hs hslots
      ⟨hclevel, hac, fun hk => hback (by subst hk; exact hleads rfl)⟩, ?_⟩
    · simp only [Allocator.fallback, hs, hslots, hlevel, Nat.add_sub_cancel, hc, map_some]
    · exact set_extends h.nonempty k c List.tail

lemma inv_enter (h : Inv s) : Inv s.enter ∧ Extends s s.enter := by
  have he : Extends s s.enter := ⟨fun _ _ => rfl, le_rfl⟩
  have hlevel : ∀ k, Behind s.enter k (s.level k) (slotsOf s.scopes k) :=
    fun k => (h.level k).extend he
  exact ⟨⟨h.beyond, fun k => (h.chain k).extend he, hlevel, ⟨hlevel, h.saved.extend he⟩,
    cons_ne_nil _ _⟩, he⟩

lemma Chain.drop {ys : List Slot} : ∀ {xs : List Slot}, Chain s k (xs ++ ys) → Chain s k ys
  | [], h => h
  | _ :: _, h => h.2.2.2.drop

lemma inv_exit (h : Inv s) : Inv s.exit ∧ Extends s s.exit := by
  rcases hs : s.scopes with _ | ⟨scope, _ | ⟨outer, rest⟩⟩
  · exact absurd hs h.nonempty
  · rw [Allocator.exit, hs]
    exact ⟨h, .refl s⟩
  · have he : Extends s { s with level := scope.saved, scopes := outer :: rest } :=
      ⟨fun _ _ => rfl, le_rfl⟩
    have hsaved := h.saved
    have hchain := h.chain
    rw [hs] at hsaved hchain
    rw [Allocator.exit, hs]
    exact ⟨⟨h.beyond, fun k => (hchain k).drop.extend he, fun k => (hsaved.1 k).extend he,
      hsaved.2.extend he, cons_ne_nil _ _⟩, he⟩

end Invariant

section Scan

variable {s : Allocator} {bitmap : ℕ → Bool} {top : ℕ} {k : Bool}

lemma mem_scan {fuel offset : ℕ} (hfuel : top ≤ offset + 8 * fuel)
    (hoffset : offset % 16 = 0 ∨ (offset % 8 = 0 ∧ bitmap (offset / 16) = true)) (o : ℕ) : o ∈
      scan bitmap top fuel offset ↔ offset ≤ o ∧ o < top ∧ o % 8 = 0 ∧ bitmap (o / 16) = true := by
  induction fuel generalizing offset with
  | zero =>
    simp only [scan, not_mem_nil, false_iff]
    omega
  | succ fuel ih =>
    rw [scan]
    split_ifs with htop hbit
    · rw [mem_cons, ih (by omega) (by
        rcases Nat.eq_zero_or_pos (offset % 16) with h | h
        · exact .inr ⟨by omega, by rw [show (offset + 8) / 16 = offset / 16 by omega, hbit]⟩
        · exact .inl (by omega))]
      constructor
      · rintro (rfl | h)
        · exact ⟨le_rfl, htop, by omega, hbit⟩
        · exact ⟨by omega, h.2⟩
      · rintro ⟨hle, h⟩
        rcases Nat.eq_or_lt_of_le hle with rfl | hlt
        · exact .inl rfl
        · exact .inr ⟨by omega, h⟩
    · have hmod : offset % 16 = 0 := hoffset.resolve_right fun h => hbit h.2
      rw [ih (by omega) (.inl (by omega))]
      refine ⟨fun h => ⟨by omega, h.2⟩, fun h => ⟨?_, h.2⟩⟩
      by_contra hlt
      exact hbit (by rw [show offset / 16 = o / 16 by omega]; exact h.2.2.2)
    · simp only [not_mem_nil, false_iff]
      omega

lemma Chain.fits : ∀ {xs : List Slot}, Chain s k xs → ∀ x ∈ xs, Fits s k x ∧
    x.start + x.size ≤ topEnd xs
  | y :: ys, h, x, hx => by
    rcases mem_cons.mp hx with rfl | hx
    · exact ⟨h.1, le_rfl⟩
    · obtain ⟨hfits, hle⟩ := Chain.fits h.2.2.2 x hx
      have := h.2.1
      exact ⟨hfits, by rw [topEnd]; omega⟩

lemma Chain.pairwise : ∀ {xs : List Slot}, Chain s k xs → xs.Pairwise Apart
  | [], _ => List.Pairwise.nil
  | _ :: _, h => pairwise_cons.mpr
    ⟨fun y hy => .inr (((Chain.fits h.2.2.2 y hy).2).trans h.2.1), Chain.pairwise h.2.2.2⟩

lemma Fits.typed {x : Slot} (h : Fits s k x) {o : ℕ} (hle : x.start ≤ o)
    (hlt : o < x.start + x.size) :
    s.bitmap (o / 16) = k := by
  have := h.inside
  rw [show o / 16 = x.start / 16 by omega, h.kind]

lemma Inv.placed (h : Inv s) : Placed s where
  disjoint := pairwise_append.mpr ⟨(h.chain false).pairwise, (h.chain true).pairwise,
    fun x hx y hy => by
    have hx := ((h.chain false).fits x hx).1
    have hy := ((h.chain true).fits y hy).1
    by_contra hover
    rw [Apart] at hover
    have h₁ := hx.typed (o := max x.start y.start) (le_max_left ..)
      (by have := hx.pos; have := hy.pos; omega)
    have h₂ := hy.typed (o := max x.start y.start) (le_max_right ..)
      (by have := hx.pos; have := hy.pos; omega)
    exact absurd (h₁.symm.trans h₂) (by decide)⟩
  below k x hx := by
    have hx := ((h.chain k).fits x hx).1
    have := hx.span_lt
    have := hx.inside
    omega
  typed k x hx o hle hlt := ((h.chain k).fits x hx).1.typed hle hlt

lemma Inv.scanned {t : Allocator} (h : Inv s) (he : Extends s t) : Scanned t.bitmap s where
  inside o ho := by
    have hlevel := (h.level true).1.1
    omega
  references x hx := by
    obtain ⟨hfits, hle⟩ := (h.chain true).fits x hx
    have hpos := hfits.pos
    rw [mem_scan (by omega) (.inl rfl), (h.level true).2.2 rfl, he.kinds _ hfits.span_lt]
    exact ⟨Nat.zero_le _, by omega, (hfits.pointer rfl).2, hfits.kind⟩
  primitives x hx o ho := by
    obtain ⟨hfits, -⟩ := (h.chain false).fits x hx
    rw [mem_scan (by omega) (.inl rfl)] at ho
    by_contra hover
    rw [Apart, kPointerSize] at hover
    dsimp only at hover
    have := hfits.inside
    have hkind := he.kinds _ hfits.span_lt
    rw [hfits.kind, show x.start / 16 = o / 16 by omega, ho.2.2.2] at hkind
    exact absurd hkind (by decide)

end Scan

variable {s : Allocator}

lemma inv_step {op : Op} (h : Inv s) (hc : Careful s op) :
    ∃ t, step s op = some t ∧ Inv t ∧ Extends s t := by
  cases op with
  | reserve size hpos hle =>
    have hround : roundUp size 4 = (size + 4 - 1) / 4 * 4 := rfl
    exact inv_reserve h hc (by omega) (by omega) (by simp)
  | reserveRef => exact inv_reserve h hc (by decide) (by decide) fun _ => rfl
  | fallback => exact inv_fallback h false
  | fallbackRef => exact inv_fallback h true
  | enterScope => exact ⟨_, rfl, inv_enter h⟩
  | exitScope => exact ⟨_, rfl, inv_exit h⟩

lemma inv_run {ops : List Op} (h : Inv s) (hc : Heeds s ops) :
    ∃ t, run s ops = some t ∧ Inv t ∧ Extends s t := by
  induction ops generalizing s with
  | nil => exact ⟨s, rfl, h, .refl s⟩
  | cons op ops ih =>
    obtain ⟨t, ht, hinv, he⟩ := inv_step h hc.1
    obtain ⟨u, hu, hinv', he'⟩ := ih hinv (hc.2 t ht)
    exact ⟨u, by rw [run, ht, bind_some, hu], hinv', he.trans he'⟩

lemma heeds_append {ops later : List Op} (h : Heeds s (ops ++ later)) :
    Heeds s ops ∧ ∀ t, run s ops = some t → Heeds t later := by
  induction ops generalizing s with
  | nil => exact ⟨trivial, fun t ht => Option.some.inj ht ▸ h⟩
  | cons op ops ih =>
    refine ⟨⟨h.1, fun t ht => (ih (h.2 t ht)).1⟩, fun t ht => ?_⟩
    obtain ⟨u, hu, ht⟩ := bind_eq_some_iff.mp ht
    exact (ih (h.2 u hu)).2 t ht

/-- In a run whose calls are all careful no bit outside of the bitmap is tested, the slots are
placed as they should be at every point, and the scan with the level of that point and the bitmap of
any later one visits the right words. -/
theorem slots_placed (ops later : List Op) (hc : Heeds new (ops ++ later)) :
    ∃ s t, run new ops = some s ∧ run s later = some t ∧ Placed s ∧ Scanned t.bitmap s := by
  obtain ⟨hops, hlater⟩ := heeds_append hc
  obtain ⟨s, hs, hinv, -⟩ := inv_run inv_new hops
  obtain ⟨t, ht, -, he⟩ := inv_run hinv (hlater s hs)
  exact ⟨s, t, hs, ht, hinv.placed, hinv.scanned he⟩

theorem slots_placed_mixed :
    ∃ s t, run new [.reserve 4 (by decide) (by decide), .reserveRef] = some s
    ∧ run s [.fallback] = some t ∧ Placed s ∧ Scanned t.bitmap s := by
  refine slots_placed _ _ ⟨fun _ h => absurd rfl h, fun t ht => ?_⟩
  obtain rfl := Option.some.inj ht
  refine ⟨fun h => absurd h (by decide), fun u hu => ?_⟩
  obtain rfl := Option.some.inj hu
  exact ⟨trivial, fun _ _ => trivial⟩

theorem test_outside : run new (List.replicate 33 (.reserve 16 (by decide) (by decide))) = none :=
  isNone_iff_eq_none.mp (by decide +kernel)

end Mai.LangStackSpace
