import Mai.BaseAlign
import Mai.RunInvariant

/-!
# Global space and constant pools

A `StableSpaceBuilder` (`lang/stable-space-builder.h`) fills an array of spans with two cursors, one
for primitive values and one for references, and marks the spans of references in a bitmap. A
location is the index of a span and an offset in it; the `int`s of the code can say it as long as
the spans take less than 2 GiB.
-/
namespace Mai.LangStableSpace

open BaseAlign RunInvariant Function List

section Model

structure SpanState where
  used : ℕ
  index : ℕ

structure Reservation where
  index : ℕ
  offset : ℕ
  size : ℕ
  isref : Bool
  contents : ℕ → ℕ

/-- The cursor of references is `cursor true`, that of primitive values `cursor false`. -/
structure Builder (K : Type*) where
  spans : ℕ → ℕ → ℕ
  bitmap : ℕ → Bool
  capacity : ℕ
  length : ℕ
  cursor : Bool → SpanState
  constants : List K
  reservations : List Reservation

structure Junk where
  spans : ℕ → ℕ → ℕ → ℕ
  bitmap : ℕ → ℕ → Bool

variable {K : Type*} (span : ℕ) (junk : Junk)

def new : Builder K where
  spans _ _ := 0
  bitmap i := i == 1
  capacity := 2
  length := 2
  cursor isref := ⟨0, if isref then 1 else 0⟩
  constants := []
  reservations := []

def checkCapacity (b : Builder K) : Builder K :=
  if b.length + 1 < b.capacity then b
  else
    { b with
      capacity := 2 * b.capacity
      spans := fun i => if i < b.length then b.spans i else junk.spans (2 * b.capacity) i
      bitmap := fun i => if i < (b.capacity + 31) / 32 * 32 then b.bitmap i
        else junk.bitmap (2 * b.capacity) i }

def nextSpan (b : Builder K) (state isref : Bool) : Builder K :=
  let b := checkCapacity junk b
  let index := max (b.cursor false).index (b.cursor true).index + 1
  { b with
    spans := if isref then update b.spans index fun _ => 0 else b.spans
    bitmap := if isref then update b.bitmap index true else b.bitmap
    length := b.length + 1
    cursor := update b.cursor state ⟨0, index⟩ }

def reserveSpan (b : Builder K) (state : Bool) (size : ℕ) (isref : Bool) : Builder K :=
  if span < (b.cursor state).used + size then nextSpan junk b state isref else b

def write (spans : ℕ → ℕ → ℕ) (index offset : ℕ) (value : List ℕ) : ℕ → ℕ → ℕ := fun i o =>
  if i = index ∧ offset ≤ o ∧ o < offset + value.length then value.getD (o - offset) 0
  else spans i o

/-- The private `Reserve` with `state` for one of the cursors; `value` is written to the
location. -/
def place (b : Builder K) (state : Bool) (size : ℕ) (isref : Bool) (value : List ℕ) : Builder K :=
  let b := reserveSpan span junk b state size isref
  let at_ := b.cursor state
  let spans := write b.spans at_.index at_.used value
  { b with
    spans := spans
    cursor := update b.cursor state ⟨at_.used + size, at_.index⟩
    reservations := ⟨at_.index, at_.used, size, isref, fun i => spans at_.index (at_.used + i)⟩ ::
      b.reservations }

structure Value where
  bytes : List ℕ
  size_eq : bytes.length = 4 ∨ bytes.length = 8

inductive Op (K : Type*)
  | reserve (size : ℕ)
  | reserveRef
  | append (value : Value)
  | appendAny (value : Value)
  | findOrInsert (key : K) (value : Value)
  | findOrInsertAny (key : K) (value : Value)

def insertIfAbsent (same : K → K → Bool) (b : Builder K) (key : K) (appended : Builder K) :
    Builder K :=
  if b.constants.any (same key) then b else { appended with constants := key :: appended.constants }

def apply (same : K → K → Bool) (b : Builder K) : Op K → Builder K
  | .reserve size => if size = 0 then place span junk b true kPointerSize true []
      else place span junk b true size false []
  | .reserveRef => place span junk b true kPointerSize true []
  | .append v => place span junk b false v.bytes.length false v.bytes
  | .appendAny v => place span junk b true v.bytes.length true v.bytes
  | .findOrInsert key v =>
    insertIfAbsent same b key (place span junk b false v.bytes.length false v.bytes)
  | .findOrInsertAny key v =>
    insertIfAbsent same b key (place span junk b true v.bytes.length true v.bytes)

def step (same : K → K → Bool) (b : Builder K) (op : Op K) : Option (Builder K) :=
  some (apply span junk same b op)

end Model

section Statement

variable {K : Type*} (span : ℕ) (junk : Junk)

def Apart (x y : Reservation) : Prop :=
  x.index = y.index → x.offset + x.size ≤ y.offset ∨ y.offset + y.size ≤ x.offset

structure Layout (b : Builder K) : Prop where
  disjoint : b.reservations.Pairwise Apart
  inside : b.length ≤ b.capacity ∧ ∀ x ∈ b.reservations, x.index < b.length ∧ x.offset + x.size ≤
    span
  kept : ∀ x ∈ b.reservations, ∀ i < x.size, b.spans x.index (x.offset + i) = x.contents i
  marked : ∀ x ∈ b.reservations, b.bitmap x.index = x.isref

def Unmarked (b : Builder K) (size : ℕ) : Prop :=
  span < (b.cursor false).used + size → (checkCapacity junk b).bitmap b.length = false

def Careful (b : Builder K) : Op K → Prop
  | .reserve size => size = 0
  | .append v => Unmarked span junk b v.bytes.length
  | .findOrInsert _ v => Unmarked span junk b v.bytes.length
  | _ => True

instance instDecidableUnmarked (b : Builder K) (size : ℕ) : Decidable (Unmarked span junk b size) :=
  inferInstanceAs (Decidable (_ → _))

instance instDecidableCareful (b : Builder K) : ∀ op, Decidable (Careful span junk b op)
  | .reserve size => inferInstanceAs (Decidable (size = 0))
  | .append v => inferInstanceAs (Decidable (Unmarked span junk b v.bytes.length))
  | .findOrInsert _ v => inferInstanceAs (Decidable (Unmarked span junk b v.bytes.length))
  | .reserveRef => isTrue trivial
  | .appendAny _ => isTrue trivial
  | .findOrInsertAny _ _ => isTrue trivial

end Statement

section Invariant

variable {K : Type*} {span : ℕ} {junk : Junk} {b : Builder K} {k : Bool} {size : ℕ}

structure Fits (span : ℕ) (b : Builder K) (x : Reservation) : Prop where
  index_lt : x.index < b.length
  offset_le : x.offset + x.size ≤ span
  marked : b.bitmap x.index = x.isref
  behind : ∀ k, x.index = (b.cursor k).index → x.offset + x.size ≤ (b.cursor k).used
  kept : ∀ i < x.size, b.spans x.index (x.offset + i) = x.contents i

structure Inv (span : ℕ) (b : Builder K) : Prop where
  used_le : ∀ k, (b.cursor k).used ≤ span
  top : b.length = max (b.cursor false).index (b.cursor true).index + 1
  room : b.length ≤ b.capacity
  marked : ∀ k, b.bitmap (b.cursor k).index = k
  fits : ∀ x ∈ b.reservations, Fits span b x
  disjoint : b.reservations.Pairwise Apart

lemma Inv.index_lt (h : Inv span b) (k : Bool) : (b.cursor k).index < b.length := by
  have := h.top
  cases k <;> omega

lemma Inv.layout (h : Inv span b) : Layout span b where
  disjoint := h.disjoint
  inside := ⟨h.room, fun x hx => ⟨(h.fits x hx).index_lt, (h.fits x hx).offset_le⟩⟩
  kept x hx := (h.fits x hx).kept
  marked x hx := (h.fits x hx).marked

lemma inv_new : Inv span (new : Builder K) where
  used_le _ := Nat.zero_le _
  top := rfl
  room := le_rfl
  marked k := by cases k <;> rfl
  fits x hx := by simp [new] at hx
  disjoint := List.Pairwise.nil

lemma inv_checkCapacity (junk : Junk) (h : Inv span b) : Inv span (checkCapacity junk b)
    ∧ (checkCapacity junk b).length < (checkCapacity junk b).capacity := by
  have hroom := h.room
  unfold checkCapacity
  split_ifs with hlt
  · exact ⟨h, by omega⟩
  · have hpos : 0 < b.length := by have := h.top; omega
    have hbit : ∀ i < b.length,
        (if i < (b.capacity + 31) / 32 * 32 then b.bitmap i else junk.bitmap (2 * b.capacity) i)
        = b.bitmap i := fun i hi => if_pos (by omega)
    refine ⟨⟨h.used_le, h.top, ?_, fun k => (hbit _ (h.index_lt k)).trans (h.marked k),
      fun x hx => ?_, h.disjoint⟩, ?_⟩
    · dsimp only
      omega
    · obtain ⟨hlt, hle, hmarked, hbehind, hkept⟩ := h.fits x hx
      exact ⟨hlt, hle, (hbit _ hlt).trans hmarked, hbehind,
        fun i hi => by simp only [if_pos hlt]; exact hkept i hi⟩
    · dsimp only
      omega

lemma checkCapacity_length (junk : Junk) (b : Builder K) :
    (checkCapacity junk b).length = b.length := by
  unfold checkCapacity
  split_ifs <;> rfl

lemma inv_nextSpan (h : Inv span b)
    (hbit : k = false → (checkCapacity junk b).bitmap b.length = false) :
    Inv span (nextSpan junk b k k) := by
  obtain ⟨hc, hroom⟩ := inv_checkCapacity junk h
  rw [← checkCapacity_length junk] at hbit
  unfold nextSpan
  dsimp only
  generalize checkCapacity junk b = c at *
  rw [← hc.top]
  have hindex : ∀ k' ≠ k, (update c.cursor k ⟨0, c.length⟩ k') = c.cursor k' :=
    fun k' hk' => update_of_ne hk' ..
  have hbits : ∀ i < c.length, (if k = true then update c.bitmap c.length true else c.bitmap) i =
      c.bitmap i :=
    fun i hi => by split_ifs; exacts [update_of_ne hi.ne .., rfl]
  refine ⟨fun k' => ?_, ?_, hroom, fun k' => ?_, fun x hx => ?_, hc.disjoint⟩
  · dsimp only
    by_cases hk' : k' = k
    · rw [hk', update_self]
      exact Nat.zero_le _
    · rw [hindex k' hk']
      exact hc.used_le k'
  · have hlt := hc.index_lt
    dsimp only
    cases k
    · rw [update_self, hindex true (by decide), max_eq_left (hlt true).le]
    · rw [update_self, hindex false (by decide), max_eq_right (hlt false).le]
  · dsimp only
    by_cases hk' : k' = k
    · rw [hk', update_self]
      cases k
      · exact hbit rfl
      · exact update_self ..
    · rw [hindex k' hk', hbits _ (hc.index_lt k')]
      exact hc.marked k'
  · obtain ⟨hlt, hle, hmarked, hbehind, hkept⟩ := hc.fits x hx
    refine ⟨hlt.trans (Nat.lt_succ_self _), hle, (hbits _ hlt).trans hmarked, fun k' hx' => ?_,
      fun i hi => ?_⟩
    · dsimp only at hx' ⊢
      by_cases hk' : k' = k
      · rw [hk', update_self] at hx'
        exact absurd hx' hlt.ne
      · rw [hindex k' hk'] at hx' ⊢
        exact hbehind k' hx'
    · dsimp only
      rw [← hkept i hi]
      split_ifs
      · exact congrFun (update_of_ne hlt.ne ..) _
      · rfl

lemma inv_reserveSpan (h : Inv span b) (hsize : size ≤ span)
    (hbit : k = false → Unmarked span junk b size) :
    Inv span (reserveSpan span junk b k size k)
      ∧ ((reserveSpan span junk b k size k).cursor k).used + size ≤ span := by
  rw [reserveSpan]
  split_ifs with hfull
  · refine ⟨inv_nextSpan h fun hk => hbit hk (hk ▸ hfull), ?_⟩
    simpa [nextSpan] using hsize
  · exact ⟨h, by omega⟩

lemma inv_place (h : Inv span b) (hsize : size ≤ span)
    (hbit : k = false → Unmarked span junk b size) {value : List ℕ} :
    Inv span (place span junk b k size k value) := by
  obtain ⟨hb, hroom⟩ := inv_reserveSpan h hsize hbit
  unfold place
  dsimp only
  generalize reserveSpan span junk b k size k = c at *
  have hother : ∀ k' ≠ k, (c.cursor k').index ≠ (c.cursor k).index := fun k' hk' heq =>
    hk' (by rw [← hb.marked k', heq, hb.marked k])
  have hcursor : ∀ k', (update c.cursor k ⟨(c.cursor k).used + size, (c.cursor k).index⟩ k').index
      = (c.cursor k').index := fun k' => by
    by_cases hk' : k' = k
    · rw [hk', update_self]
    · rw [update_of_ne hk']
  have hused : ∀ k', (c.cursor k').used
      ≤ (update c.cursor k ⟨(c.cursor k).used + size, (c.cursor k).index⟩ k').used := fun k' => by
    by_cases hk' : k' = k
    · rw [hk', update_self]
      exact Nat.le_add_right _ _
    · rw [update_of_ne hk']
  refine ⟨fun k' => ?_, ?_, hb.room, fun k' => ?_, forall_mem_cons.mpr ⟨?_, fun x hx => ?_⟩,
    pairwise_cons.mpr ⟨fun x hx heq => ?_, hb.disjoint⟩⟩
  · dsimp only
    by_cases hk' : k' = k
    · rw [hk', update_self]
      exact hroom
    · rw [update_of_ne hk']
      exact hb.used_le k'
  · dsimp only
    rw [hcursor, hcursor]
    exact hb.top
  · dsimp only
    rw [hcursor]
    exact hb.marked k'
  · refine ⟨hb.index_lt k, hroom, hb.marked k, fun k' heq => ?_, fun i hi => rfl⟩
    dsimp only at heq ⊢
    by_cases hk' : k' = k
    · rw [hk', update_self]
    · rw [hcursor] at heq
      exact absurd heq.symm (hother k' hk')
  · obtain ⟨hlt, hle, hmarked, hbehind, hkept⟩ := hb.fits x hx
    refine ⟨hlt, hle, hmarked, fun k' heq => (hbehind k' (heq.trans (hcursor k'))).trans (hused k'),
      fun i hi => ?_⟩
    rw [← hkept i hi]
    refine if_neg fun hhit => ?_
    have := hbehind k hhit.1
    omega
  · have := (hb.fits x hx).behind k heq.symm
    exact .inr this

theorem inv_step {same : K → K → Bool} (hspan : 8 ≤ span) {b t : Builder K} {op : Op K}
    (hc : Careful span junk b op) (h : Inv span b) (hstep : step span junk same b op = some t) :
    Inv span t := by
  obtain rfl := Option.some.inj hstep
  have hle : ∀ v : Value, v.bytes.length ≤ span :=
    fun v => by rcases v.size_eq with hv | hv <;> omega
  have hfind : ∀ key {c : Builder K}, Inv span c → Inv span (insertIfAbsent same b key c) :=
    fun key c hc => by
    unfold insertIfAbsent
    split_ifs
    · exact h
    · exact ⟨hc.used_le, hc.top, hc.room, hc.marked,
        fun x hx => ⟨(hc.fits x hx).1, (hc.fits x hx).2, (hc.fits x hx).3, (hc.fits x hx).4,
          (hc.fits x hx).5⟩, hc.disjoint⟩
  have href : Inv span (place span junk b true kPointerSize true []) := inv_place h hspan (by simp)
  cases op with
  | reserve size =>
    rw [apply, if_pos (show size = 0 from hc)]
    exact href
  | reserveRef => exact href
  | append v => exact inv_place h (hle v) (fun _ => hc)
  | appendAny v => exact inv_place h (hle v) (by simp)
  | findOrInsert key v => exact hfind key (inv_place h (hle v) (fun _ => hc))
  | findOrInsertAny key v => exact hfind key (inv_place h (hle v) (by simp))

end Invariant

section Runs

variable {K : Type*}

/-- Every layout reached is sound as long as no primitive value goes to the cursor of references or
to a marked span. -/
theorem layout_always (span : ℕ) (hspan : 8 ≤ span) (junk : Junk) (same : K → K → Bool)
    (ops : List (Op K)) (hcareful : EachStep (step span junk same) (Careful span junk) new ops) :
    Always (step span junk same) (Layout span) new ops := by
  intro bs t hb ht
  exact (always_of_eachStep (fun _ _ _ => inv_step hspan) inv_new hcareful bs t hb ht).layout

def zeroed : Junk := ⟨fun _ _ _ => 0, fun _ _ => false⟩

def word (n : ℕ) : Value := ⟨[n, 0, 0, 0], .inl rfl⟩

def pointer (n : ℕ) : Value := ⟨[n, 0, 0, 0, 0, 0, 0, 0], .inr rfl⟩

def mixed : List (Op ℕ) :=
  List.replicate 9 (.appendAny (pointer 1)) ++ List.replicate 17 (.append (word 2)) ++
    [.findOrInsert 7 (word 3), .reserveRef]

theorem layout_always_mixed :
    EachStep (step 64 zeroed fun (a b : ℕ) => a == b) (Careful 64 zeroed) new mixed
    ∧ Always (step 64 zeroed fun (a b : ℕ) => a == b) (Layout 64) new mixed := by
  have hcareful : EachStep (step 64 zeroed fun (a b : ℕ) => a == b) (Careful 64 zeroed) new mixed :=
    eachStep_of_checkEach (by decide +kernel)
  exact ⟨hcareful, layout_always 64 (by decide) zeroed _ mixed hcareful⟩

/-- The public `Reserve` puts a number into the span of references. -/
theorem reserve_marked :
    ¬ Always (step 64 zeroed fun (a b : ℕ) => a == b) (Layout 64) new [.reserve 4] := by
  intro h
  exact absurd ((h _ _ prefix_rfl rfl).marked _ mem_cons_self) (by decide)

end Runs

end Mai.LangStableSpace
