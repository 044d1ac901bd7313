import Mai.CoreKeys
import Mai.OrderedIterator

/-! The iterator of `core/delta-amend-iterator.cc`: a base iterator amended by the puts and
deletions of a delta iterator, with turns in both directions. Cursors over lists have no errors to
report. -/
namespace Mai.CoreDeltaAmend
open VersionedEntries CoreKeys ListCursor OrderedIterator RunInvariant

structure Delta (K V : Type*) where
  userKey : K
  flag : Flag
  value : V
  deriving DecidableEq, Repr

structure DeltaAmendIterator (K V : Type*) where
  base : Cursor (K × V)
  delta : Cursor (Delta K V)
  direction : Direction
  currentAtBase : Bool
  equalKeys : Bool
  deriving DecidableEq, Repr

section Moves
variable {α : Type*}

def advance : Direction → Cursor α → Cursor α
  | .forward => Cursor.next
  | .reserve => Cursor.prev

def advanceIf (equalKeys : Bool) (dir : Direction) (c : Cursor α) : Cursor α :=
  if equalKeys then advance dir c else c

def start : Direction → Cursor α → Cursor α
  | .forward => Cursor.seekToFirst
  | .reserve => Cursor.seekToLast

def cross (dir : Direction) (c : Cursor α) : Cursor α :=
  if c.valid then advance dir c else start dir c

def remaining : Direction → Cursor α → ℕ
  | .forward, c => c.rest.length
  | .reserve, c => c.behind

lemma remaining_advance {c : Cursor α} {a : α} (h : c.current = some a) (dir : Direction) :
    remaining dir (advance dir c) < remaining dir c := by
  cases dir with
  | forward =>
    simp only [remaining, advance]
    rw [Cursor.rest_of_current h]
    exact Nat.lt_succ_self _
  | reserve => exact Cursor.behind_prev h

end Moves

variable {K V : Type*}

def DeltaAmendIterator.entry (it : DeltaAmendIterator K V) : Option (K × V) :=
  if it.currentAtBase then it.base.current else it.delta.current.map fun d => (d.userKey, d.value)

lemma entry_cases {it : DeltaAmendIterator K V} {x : K × V} (hx : it.entry = some x) :
    it.currentAtBase = true ∧ it.base.current = some x ∨
      it.currentAtBase = false ∧ ∃ d, it.delta.current = some d ∧ x = (d.userKey, d.value) := by
  rw [DeltaAmendIterator.entry] at hx
  cases hcur : it.currentAtBase with
  | true => exact Or.inl ⟨rfl, by simpa [hcur] using hx⟩
  | false =>
    rw [hcur] at hx
    obtain ⟨d, hd, hdx⟩ := Option.map_eq_some_iff.mp hx
    exact Or.inr ⟨rfl, d, hd, hdx.symm⟩

variable [LinearOrder K]

def reaches : Direction → K → K → Bool
  | .forward, a, b => a ≤ b
  | .reserve, a, b => b ≤ a

namespace DeltaAmendIterator

def new (base : Cursor (K × V)) (delta : Cursor (Delta K V)) : DeltaAmendIterator K V :=
  ⟨base, delta, .forward, true, false⟩

def updateCurrent (it : DeltaAmendIterator K V) : DeltaAmendIterator K V :=
  match _h : it.delta.current, it.base.current with
  | none, none => { it with equalKeys := false }
  | none, some _ => { it with equalKeys := false, currentAtBase := true }
  | some d, none =>
    if d.flag = .deletion then
      updateCurrent { it with equalKeys := false, delta := advance it.direction it.delta }
    else { it with equalKeys := false, currentAtBase := false }
  | some d, some b =>
    if reaches it.direction d.userKey b.1 then
      if d.flag = .deletion then
        updateCurrent { it with
          equalKeys := d.userKey = b.1
          delta := advance it.direction it.delta
          base := advanceIf (d.userKey = b.1) it.direction it.base }
      else { it with equalKeys := d.userKey = b.1, currentAtBase := false }
    else { it with equalKeys := false, currentAtBase := true }
  termination_by remaining it.direction it.delta
  decreasing_by
    all_goals exact remaining_advance _h it.direction

def seekToFirst (it : DeltaAmendIterator K V) : DeltaAmendIterator K V :=
  updateCurrent { it with
    direction := .forward, base := it.base.seekToFirst, delta := it.delta.seekToFirst }

def seekToLast (it : DeltaAmendIterator K V) : DeltaAmendIterator K V :=
  updateCurrent { it with
    direction := .reserve, base := it.base.seekToLast, delta := it.delta.seekToLast }

def seek (it : DeltaAmendIterator K V) (target : K) : DeltaAmendIterator K V :=
  updateCurrent { it with
    direction := .forward
    base := it.base.seek fun b => target ≤ b.1
    delta := it.delta.seek fun d => target ≤ d.userKey }

def advanceCurrent (it : DeltaAmendIterator K V) : DeltaAmendIterator K V :=
  updateCurrent
    (if it.equalKeys then { it with
      base := advance it.direction it.base, delta := advance it.direction it.delta }
    else if it.currentAtBase then { it with base := advance it.direction it.base }
    else { it with delta := advance it.direction it.delta })

def reposition (it : DeltaAmendIterator K V) : DeltaAmendIterator K V :=
  if !it.base.valid then { it with base := start it.direction it.base }
  else if !it.delta.valid then { it with delta := start it.direction it.delta }
  else if it.currentAtBase then { it with delta := advance it.direction it.delta }
  else { it with base := advance it.direction it.base }

def sameKey (it : DeltaAmendIterator K V) : Bool :=
  match it.delta.current, it.base.current with
  | some d, some b => d.userKey = b.1
  | _, _ => false

def turn (it : DeltaAmendIterator K V) (direction : Direction) : DeltaAmendIterator K V :=
  if it.direction = direction then it
  else
    let it := reposition { it with direction := direction, equalKeys := false }
    { it with equalKeys := it.sameKey }

def next (it : DeltaAmendIterator K V) : DeltaAmendIterator K V := (it.turn .forward).advanceCurrent

def prev (it : DeltaAmendIterator K V) : DeltaAmendIterator K V := (it.turn .reserve).advanceCurrent

def call (it : DeltaAmendIterator K V) : Call K → Option (DeltaAmendIterator K V)
  | .seekToFirst => some it.seekToFirst
  | .seekToLast => some it.seekToLast
  | .seek target => some (it.seek target)
  | .next => if it.entry.isSome then some it.next else none
  | .prev => if it.entry.isSome then some it.prev else none

end DeltaAmendIterator

def overlay (base : List (K × V)) (delta : List (Delta K V)) : List (K × V) :=
  (base.filter (fun b => ∀ d ∈ delta, d.userKey ≠ b.1) ++
    (delta.filter fun d => d.flag ≠ .deletion).map fun d => (d.userKey, d.value)).insertionSort
    fun a b => a.1 ≤ b.1

section Order
variable {dir : Direction} {a b c : K}

def Ahead (dir : Direction) (a b : K) : Prop := ¬ reaches dir b a = true

lemma reaches_refl (dir : Direction) (a : K) : reaches dir a a = true := by
    cases dir <;> simp [reaches]

lemma reaches_trans (h : reaches dir a b = true) (h' : reaches dir b c = true) :
    reaches dir a c = true := by
  cases dir <;> simp only [reaches, decide_eq_true_iff] at *
  · exact h.trans h'
  · exact h'.trans h

lemma reaches_antisymm (h : reaches dir a b = true) (h' : reaches dir b a = true) : a = b := by
  cases dir <;> simp only [reaches, decide_eq_true_iff] at *
  · exact le_antisymm h h'
  · exact le_antisymm h' h

lemma reaches_total (dir : Direction) (a b : K) :
    reaches dir a b = true ∨ reaches dir b a = true := by
  cases dir <;> simp only [reaches, decide_eq_true_iff]
  · exact le_total a b
  · exact le_total b a

variable {α : Type*} {key : α → K} {items : List α} {p q : α → Prop} {o : Option α}

def First (dir : Direction) (key : α → K) (items : List α) (p : α → Prop) : Option α → Prop
  | none => ∀ x ∈ items, ¬ p x
  | some x => x ∈ items ∧ p x ∧ ∀ y ∈ items, p y → reaches dir (key x) (key y) = true

lemma first_forward : First .forward key items p o ↔ Least key items p o := by
  cases o <;> simp [First, Least, reaches]

lemma first_reserve : First .reserve key items p o ↔ Greatest key items p o := by
  cases o <;> simp [First, Greatest, Least, reaches]

lemma First.congr (h : First dir key items p o) (hpq : ∀ x ∈ items, p x ↔ q x) :
    First dir key items q o := by
  cases o with
  | none => exact fun x hx hq => h x hx ((hpq x hx).mpr hq)
  | some a => exact ⟨h.1, (hpq a h.1).mp h.2.1, fun x hx hq => h.2.2 x hx ((hpq x hx).mpr hq)⟩

lemma ahead_of_reaches (h : reaches dir a b = true) (hne : a ≠ b) : Ahead dir a b :=
  fun h' => hne (reaches_antisymm h h')

lemma Ahead.reaches (h : Ahead dir a b) : reaches dir a b = true :=
  (reaches_total dir a b).resolve_right h

lemma Ahead.ne (h : Ahead dir a b) : a ≠ b := by
  rintro rfl
  exact h (reaches_refl dir a)

lemma ahead_trans (h : Ahead dir a b) (h' : CoreDeltaAmend.reaches dir b c = true) :
    Ahead dir a c :=
  fun hca => h (reaches_trans h' hca)

lemma ahead_of_ahead (h : CoreDeltaAmend.reaches dir a b = true) (h' : Ahead dir b c) :
    Ahead dir a c :=
  fun hca => h' (reaches_trans hca h)

lemma reaches_opposite {dir' : Direction} (h : dir' ≠ dir) (a b : K) :
    CoreDeltaAmend.reaches dir' a b = CoreDeltaAmend.reaches dir b a := by
  cases dir <;> cases dir' <;> first | rfl | exact absurd rfl h

variable {cur : Cursor α} {x : α}

lemma first_advance (hasc : Ascending key cur.items) (hx : cur.current = some x) (dir : Direction) :
    First dir key cur.items (fun y => Ahead dir (key x) (key y)) (advance dir cur).current := by
  cases dir with
  | forward =>
    refine (first_forward.mpr (least_next hasc hx)).congr fun y _ => ?_
    simp [Ahead, reaches]
  | reserve =>
    refine (first_reserve.mpr (greatest_prev hasc hx)).congr fun y _ => ?_
    simp [Ahead, reaches]

lemma first_start (hasc : Ascending key cur.items) (dir : Direction) :
    First dir key cur.items (fun _ => True) (start dir cur).current := by
  cases dir with
  | forward => exact first_forward.mpr (least_seekToFirst hasc)
  | reserve => exact first_reserve.mpr (greatest_seekToLast hasc)

lemma items_advance (dir : Direction) : (advance dir cur).items = cur.items := by cases dir <;> rfl

lemma items_start (dir : Direction) : (start dir cur).items = cur.items := by cases dir <;> rfl

lemma First.turn {dir' : Direction} (hne : dir' ≠ dir) (hasc : Ascending key cur.items) {k : K}
    (h : First dir' key cur.items (fun y => CoreDeltaAmend.reaches dir' k (key y) =
      true) cur.current) :
    First dir key cur.items (fun y => Ahead dir k (key y))
      (cross dir cur).current := by
  rw [cross]
  rcases hcur : cur.current with _ | x
  · rw [if_neg (by simp [Cursor.current_eq_none.mp hcur])]
    rw [hcur] at h
    refine (first_start hasc dir).congr fun y hy => ⟨fun _ hback => h y hy ?_, fun _ => trivial⟩
    exact (reaches_opposite hne k (key y)).trans hback
  · rw [if_pos (Cursor.valid_of_current hcur)]
    rw [hcur] at h
    have hxk := (reaches_opposite hne k (key x)).symm.trans h.2.1
    refine (first_advance hasc hcur dir).congr fun y hy =>
      ⟨fun hxy hyk => hxy ?_, ahead_of_ahead hxk⟩
    rw [← reaches_opposite hne]
    exact h.2.2 y hy ((reaches_opposite hne k (key y)).trans hyk)

lemma items_cross (dir : Direction) : (cross dir cur).items = cur.items := by
  rw [cross]
  split_ifs
  · exact items_advance dir
  · exact items_start dir

def Onward (dir : Direction) (p : K → Prop) : Prop := ∀ a b, p a → reaches dir a b = true → p b

lemma onward_ahead (dir : Direction) (a : K) : Onward dir (Ahead dir a) := fun _ _ => ahead_trans

lemma First.from {s : K → Prop} (h : First dir key items (fun x => s (key x)) o) (hs : Onward dir s)
    (ha : s a) (ho : ∀ x, o = some x → reaches dir a (key x) = true) :
    First dir key items (fun x => reaches dir a (key x) = true) o := by
  refine h.congr fun y hy => ⟨fun hsy => ?_, hs a (key y) ha⟩
  cases o with
  | none => exact absurd hsy (h y hy)
  | some x => exact reaches_trans (ho x rfl) (h.2.2 y hy hsy)

end Order

section Overlay
variable {B : List (K × V)} {D : List (Delta K V)}

lemma mem_overlay {x : K × V} : x ∈ overlay B D ↔
    (x ∈ B ∧ ∀ d ∈ D, d.userKey ≠ x.1) ∨ ∃ d ∈ D, d.flag ≠ .deletion ∧
      x = (d.userKey, d.value) := by
  simp only [overlay, List.mem_insertionSort, List.mem_append, List.mem_filter, List.mem_map,
    decide_eq_true_iff, and_assoc]
  refine or_congr Iff.rfl (exists_congr fun d => ?_)
  rw [eq_comm]

lemma ascending_overlay (hB : Ascending Prod.fst B) (hD : Ascending Delta.userKey D) :
    Ascending Prod.fst (overlay B D) := by
  have htotal : Std.Total fun a b : K × V => a.1 ≤ b.1 := ⟨fun a b => le_total a.1 b.1⟩
  have htrans : IsTrans (K × V) fun a b => a.1 ≤ b.1 := ⟨fun _ _ _ => le_trans⟩
  let l := B.filter (fun b => ∀ d ∈ D, d.userKey ≠ b.1) ++
    (D.filter fun d => d.flag ≠ .deletion).map fun d => (d.userKey, d.value)
  have hdistinct : l.Pairwise fun a b => a.1 ≠ b.1 := by
    refine List.pairwise_append.mpr ⟨(hB.filter _).imp fun h => h.ne, ?_, fun a ha b hb => ?_⟩
    · rw [List.pairwise_map]
      exact (hD.filter _).imp fun h => h.ne
    · obtain ⟨-, ha⟩ := List.mem_filter.mp ha
      obtain ⟨d, hd, rfl⟩ := List.mem_map.mp hb
      exact (of_decide_eq_true ha d (List.mem_filter.mp hd).1).symm
  have hperm : (overlay B D).Perm l := List.perm_insertionSort _ l
  have hdistinct := hperm.symm.pairwise hdistinct fun h => h.symm
  have hsorted : (overlay B D).Pairwise fun a b => a.1 ≤ b.1 := List.pairwise_insertionSort _ l
  exact (hsorted.and hdistinct).imp fun h => h.1.lt_of_ne h.2

end Overlay

section Update
variable {it : DeltaAmendIterator K V} {p : K → Prop} {x : K × V} {d : Delta K V}

structure At (p : K → Prop) (it : DeltaAmendIterator K V) : Prop where
  base : First it.direction Prod.fst it.base.items (fun b => p b.1) it.base.current
  delta : First it.direction Delta.userKey it.delta.items (fun d => p d.userKey) it.delta.current

structure Placed (it : DeltaAmendIterator K V) (x : K × V) : Prop where
  position : At (fun k => reaches it.direction x.1 k = true) it
  equal : it.equalKeys = true ↔ ∃ b d, it.base.current = some b ∧ it.delta.current = some d ∧
    d.userKey = b.1
  unchanged : it.currentAtBase = true → ∀ d, it.delta.current = some d → d.userKey ≠ x.1

structure Shows (p : K → Prop) (it it' : DeltaAmendIterator K V) : Prop where
  baseItems : it'.base.items = it.base.items
  deltaItems : it'.delta.items = it.delta.items
  direction : it'.direction = it.direction
  entry : First it.direction Prod.fst (overlay it.base.items it.delta.items) (fun x => p x.1)
    it'.entry
  placed : ∀ x, it'.entry = some x → Placed it' x

lemma At.from (h : At p it) (hp : Onward it.direction p) {k : K} (hk : p k)
    (hb : ∀ b, it.base.current = some b → reaches it.direction k b.1 = true)
    (hd : ∀ d, it.delta.current = some d → reaches it.direction k d.userKey = true) :
    At (fun k' => reaches it.direction k k' = true) it :=
  ⟨h.base.from hp hk hb, h.delta.from hp hk hd⟩

lemma At.first_base (h : At p it) {b : K × V} (hb : it.base.current = some b)
    (hd : ∀ d, it.delta.current = some d → Ahead it.direction b.1 d.userKey) :
    First it.direction Prod.fst (overlay it.base.items it.delta.items) (fun x => p x.1)
      (some b) := by
  have hbase := h.base
  rw [hb] at hbase
  have hdelta : ∀ d ∈ it.delta.items, p d.userKey → Ahead it.direction b.1 d.userKey := by
    intro d hmem hpd
    have hfirst := h.delta
    rcases hcur : it.delta.current with _ | e
    · rw [hcur] at hfirst
      exact absurd hpd (hfirst d hmem)
    · rw [hcur] at hfirst
      exact ahead_trans (hd e hcur) (hfirst.2.2 d hmem hpd)
  refine ⟨mem_overlay.mpr (Or.inl ⟨hbase.1, fun d hmem heq => ?_⟩), hbase.2.1, fun y hy hpy => ?_⟩
  · exact (hdelta d hmem (heq ▸ hbase.2.1)).ne heq.symm
  · obtain ⟨hy, -⟩ | ⟨d, hmem, -, rfl⟩ := mem_overlay.mp hy
    · exact hbase.2.2 y hy hpy
    · exact (hdelta d hmem hpy).reaches

lemma At.first_delta (h : At p it) (hd : it.delta.current = some d) (hput : d.flag ≠ .deletion)
    (hb : ∀ b, it.base.current = some b → reaches it.direction d.userKey b.1 = true) :
    First it.direction Prod.fst (overlay it.base.items it.delta.items) (fun x => p x.1)
      (some (d.userKey, d.value)) := by
  have hdelta := h.delta
  rw [hd] at hdelta
  refine ⟨mem_overlay.mpr (Or.inr ⟨d, hdelta.1, hput, rfl⟩), hdelta.2.1, fun y hy hpy => ?_⟩
  obtain ⟨hy, -⟩ | ⟨e, hmem, -, rfl⟩ := mem_overlay.mp hy
  · have hfirst := h.base
    rcases hcur : it.base.current with _ | b
    · rw [hcur] at hfirst
      exact absurd hpy (hfirst y hy)
    · rw [hcur] at hfirst
      exact reaches_trans (hb b hcur) (hfirst.2.2 y hy hpy)
  · exact hdelta.2.2 e hmem hpy

lemma At.skip (h : At p it) (hp : Onward it.direction p)
    (hD : Ascending Delta.userKey it.delta.items) (hd : it.delta.current = some d)
    (hdel : d.flag = .deletion)
    (hb : ∀ b, it.base.current = some b → reaches it.direction d.userKey b.1 = true) :
    ∀ x ∈ overlay it.base.items it.delta.items, Ahead it.direction d.userKey x.1 ↔ p x.1 := by
  have hdelta := h.delta
  rw [hd] at hdelta
  intro x hx
  refine ⟨fun hax => hp d.userKey x.1 hdelta.2.1 hax.reaches, fun hpx => ?_⟩
  obtain ⟨hx, hfree⟩ | ⟨e, hmem, hput, rfl⟩ := mem_overlay.mp hx
  · refine ahead_of_reaches ?_ (hfree d hdelta.1)
    have hfirst := h.base
    rcases hcur : it.base.current with _ | b
    · rw [hcur] at hfirst
      exact absurd hpx (hfirst x hx)
    · rw [hcur] at hfirst
      exact reaches_trans (hb b hcur) (hfirst.2.2 x hx hpx)
  · refine ahead_of_reaches (hdelta.2.2 e hmem hpx) fun heq => hput ?_
    rw [← hD.inj hdelta.1 hmem heq]
    exact hdel

lemma Shows.after {q : K → Prop} {it₁ it' : DeltaAmendIterator K V} (h : Shows q it₁ it')
    (hbase : it₁.base.items = it.base.items) (hdelta : it₁.delta.items = it.delta.items)
    (hdir : it₁.direction = it.direction)
    (hq : ∀ x ∈ overlay it.base.items it.delta.items, q x.1 ↔ p x.1) : Shows p it it' := by
  refine ⟨h.baseItems.trans hbase, h.deltaItems.trans hdelta, h.direction.trans hdir, ?_, h.placed⟩
  have hentry := h.entry
  rw [hbase, hdelta, hdir] at hentry
  exact hentry.congr hq

lemma shows_base (h : At p it) (hp : Onward it.direction p) {b : K × V}
    (hb : it.base.current = some b)
    (hd : ∀ d, it.delta.current = some d → Ahead it.direction b.1 d.userKey) :
    Shows p it { it with equalKeys := false, currentAtBase := true } := by
  have hentry : ({ it with
      equalKeys := false, currentAtBase := true } : DeltaAmendIterator K V).entry = some b := by
    simp [DeltaAmendIterator.entry, hb]
  have hfirst := h.base
  rw [hb] at hfirst
  refine ⟨rfl, rfl, rfl, ?_, fun x hx => ?_⟩
  · rw [hentry]
    exact h.first_base hb hd
  · obtain rfl := Option.some.inj (hentry.symm.trans hx)
    have hat := h.from hp hfirst.2.1
      (fun b' hb' => Option.some.inj (hb.symm.trans hb') ▸ reaches_refl _ b.1)
      fun d hd' => (hd d hd').reaches
    refine ⟨⟨hat.base, hat.delta⟩, ?_, fun _ d hd' => (hd d hd').ne.symm⟩
    · refine ⟨fun hno => (by cases hno), fun ⟨b', d, hb', hd', heq⟩ => ?_⟩
      rw [Option.some.inj (hb'.symm.trans hb)] at heq
      exact absurd heq.symm (hd d hd').ne

lemma shows_delta (h : At p it) (hp : Onward it.direction p) (hd : it.delta.current = some d)
    (hput : d.flag ≠ .deletion)
    (hb : ∀ b, it.base.current = some b → reaches it.direction d.userKey b.1 = true)
    {equalKeys : Bool} (heq : equalKeys = true ↔ ∃ b, it.base.current = some b ∧ d.userKey = b.1) :
    Shows p it { it with equalKeys := equalKeys, currentAtBase := false } := by
  have hentry : ({ it with equalKeys := equalKeys, currentAtBase := false } : DeltaAmendIterator K
      V).entry =
      some (d.userKey, d.value) := by
    simp [DeltaAmendIterator.entry, hd]
  have hfirst := h.delta
  rw [hd] at hfirst
  refine ⟨rfl, rfl, rfl, ?_, fun x hx => ?_⟩
  · rw [hentry]
    exact h.first_delta hd hput hb
  · obtain rfl := Option.some.inj (hentry.symm.trans hx)
    have hat := h.from hp hfirst.2.1 hb fun d' hd' =>
      Option.some.inj (hd.symm.trans hd') ▸ reaches_refl _ d.userKey
    refine ⟨⟨hat.base, hat.delta⟩, heq.trans ?_, fun hno => by cases hno⟩
    · refine ⟨fun ⟨b, hb', heq'⟩ => ⟨b, d, hb', hd, heq'⟩,
        fun ⟨b, d', hb', hd', heq'⟩ => ⟨b, hb', ?_⟩⟩
      rwa [Option.some.inj (hd'.symm.trans hd)] at heq'

lemma updateCurrent_spec (it : DeltaAmendIterator K V) (h : At p it) (hp : Onward it.direction p)
    (hB : Ascending Prod.fst it.base.items) (hD : Ascending Delta.userKey it.delta.items) :
    Shows p it it.updateCurrent := by
  fun_induction DeltaAmendIterator.updateCurrent it generalizing p with
  | case1 it hd hb =>
    have hbase := h.base
    have hdelta := h.delta
    rw [hb] at hbase
    rw [hd] at hdelta
    have hentry : ({ it with equalKeys := false } : DeltaAmendIterator K V).entry = none := by
      simp [DeltaAmendIterator.entry, hb, hd]
    refine ⟨rfl, rfl, rfl, ?_, fun x hx => by simp [hentry] at hx⟩
    rw [hentry]
    intro x hx hpx
    obtain ⟨hx, -⟩ | ⟨d, hmem, -, rfl⟩ := mem_overlay.mp hx
    · exact hbase x hx hpx
    · exact hdelta d hmem hpx
  | case2 it b hd hb => exact shows_base h hp hb fun d hd' => by simp [hd] at hd'
  | case3 it d hd hb hdel ih =>
    have hbase := h.base
    have hdelta := h.delta
    rw [hb] at hbase
    rw [hd] at hdelta
    have hnone : ∀ b, it.base.current = some b → reaches it.direction d.userKey b.1 = true :=
      fun b hb' => by
      simp [hb] at hb'
    refine (ih ⟨?_, ?_⟩ (onward_ahead it.direction d.userKey) hB (by rwa [items_advance])).after rfl
      (items_advance _) rfl
      (h.skip hp hD hd hdel hnone)
    · rw [hb]
      exact fun b hmem hahead => hbase b hmem (hp d.userKey b.1 hdelta.2.1 hahead.reaches)
    · rw [items_advance]
      exact first_advance hD hd it.direction
  | case4 it d hd hb hput =>
    exact shows_delta h hp hd hput (fun b hb' => by simp [hb] at hb') (by simp [hb])
  | case5 it d b hd hb hreach hdel ih =>
    have hbase := h.base
    rw [hb] at hbase
    have hitems : (advanceIf (d.userKey = b.1) it.direction it.base).items = it.base.items := by
      rw [advanceIf]
      split_ifs
      · exact items_advance _
      · rfl
    have hreached : ∀ b', it.base.current = some b' → reaches it.direction d.userKey b'.1 =
        true := by
      intro b' hb'
      rwa [Option.some.inj (hb'.symm.trans hb)]
    refine (ih ⟨?_, ?_⟩ (onward_ahead it.direction d.userKey) (by rwa [hitems])
      (by rwa [items_advance])).after hitems
      (items_advance _) rfl (h.skip hp hD hd hdel hreached)
    · rw [hitems]
      by_cases heq : d.userKey = b.1
      · rw [advanceIf, if_pos (decide_eq_true heq), heq]
        exact first_advance hB hb it.direction
      · rw [advanceIf, if_neg (by simpa using heq)]
        refine h.base.congr fun b' hmem => ⟨fun hpb => ?_, fun hahead => ?_⟩
        · exact ahead_trans (ahead_of_reaches hreach heq) (hbase.2.2 b' hmem hpb)
        · have hdelta := h.delta
          rw [hd] at hdelta
          exact hp d.userKey b'.1 hdelta.2.1 hahead.reaches
    · rw [items_advance]
      exact first_advance hD hd it.direction
  | case6 it d b hd hb hreach hput =>
    refine shows_delta h hp hd hput (fun b' hb' => ?_) ?_
    · rwa [Option.some.inj (hb'.symm.trans hb)]
    · simp [hb]
  | case7 it d b hd hb hreach =>
    refine shows_base h hp hb fun d' hd' => ?_
    rwa [Option.some.inj (hd'.symm.trans hd)]

end Update

section Calls
variable {it : DeltaAmendIterator K V} {x : K × V}

/-- The iterator is about to leave an entry: those that stand on its key are the ones that will be
moved, and the others are ahead of it. -/
inductive Ready (it : DeltaAmendIterator K V) (k : K) : Prop
  | both (b : K × V) (d : Delta K V) :
      it.equalKeys = true → it.base.current = some b → it.delta.current = some d →
    b.1 = k → d.userKey = k → Ready it k
  | base (b : K × V) :
      it.equalKeys = false → it.currentAtBase = true → it.base.current = some b → b.1 = k →
    First it.direction Delta.userKey it.delta.items (fun d => Ahead it.direction k d.userKey)
      it.delta.current → Ready it k
  | delta (d : Delta K V) :
      it.equalKeys = false → it.currentAtBase = false → it.delta.current = some d → d.userKey = k →
    First it.direction Prod.fst it.base.items (fun b => Ahead it.direction k b.1) it.base.current →
      Ready it k

lemma First.ahead {α : Type*} {dir : Direction} {key : α → K} {items : List α} {k : K}
    {o : Option α} (h : First dir key items (fun y => reaches dir k (key y) = true) o)
    (ho : ∀ y, o = some y → key y ≠ k) :
    First dir key items (fun y => Ahead dir k (key y)) o := by
  refine h.congr fun y hy => ⟨fun hky => ?_, fun hky => hky.reaches⟩
  cases o with
  | none => exact absurd hky (h y hy)
  | some z => exact ahead_trans (ahead_of_reaches h.2.1 (ho z rfl).symm) (h.2.2 y hy hky)

lemma Placed.ready (h : Placed it x) (hx : it.entry = some x) : Ready it x.1 := by
  cases heq : it.equalKeys with
  | true =>
    obtain ⟨b, d, hb, hd, hbd⟩ := h.equal.mp heq
    obtain ⟨hbase, hcur⟩ | ⟨-, d', hd', rfl⟩ := entry_cases hx
    · obtain rfl := Option.some.inj (hb.symm.trans hcur)
      exact absurd hbd (h.unchanged hbase d hd)
    · obtain rfl := Option.some.inj (hd.symm.trans hd')
      exact .both b d heq hb hd hbd.symm rfl
  | false =>
    obtain ⟨hbase, hcur⟩ | ⟨hdelta, d, hd, rfl⟩ := entry_cases hx
    · exact .base x heq hbase hcur rfl (h.position.delta.ahead (h.unchanged hbase))
    · refine .delta d heq hdelta hd rfl (h.position.base.ahead fun b hb hbd => ?_)
      have hequal := h.equal.mpr ⟨b, d, hb, hd, hbd.symm⟩
      rw [heq] at hequal
      cases hequal

lemma Ready.advanceCurrent {k : K} (h : Ready it k) (hB : Ascending Prod.fst it.base.items)
    (hD : Ascending Delta.userKey it.delta.items) :
    Shows (Ahead it.direction k) it it.advanceCurrent := by
  have hp := onward_ahead it.direction k
  rw [DeltaAmendIterator.advanceCurrent]
  cases h with
  | both b d heq hb hd hbk hdk =>
    rw [if_pos heq]
    refine (updateCurrent_spec
      { it with base := advance it.direction it.base, delta := advance it.direction it.delta }
        ⟨?_, ?_⟩ hp ?_ ?_).after
      (items_advance _) (items_advance _) rfl fun _ _ => Iff.rfl
    · rw [items_advance, ← hbk]
      exact first_advance hB hb it.direction
    · rw [items_advance, ← hdk]
      exact first_advance hD hd it.direction
    · rwa [items_advance]
    · rwa [items_advance]
  | base b heq hat hb hbk hdelta =>
    rw [if_neg (by simp [heq]), if_pos hat]
    refine (updateCurrent_spec { it with base := advance it.direction it.base } ⟨?_, hdelta⟩ hp ?_
      hD).after
      (items_advance _) rfl rfl fun _ _ => Iff.rfl
    · rw [items_advance, ← hbk]
      exact first_advance hB hb it.direction
    · rwa [items_advance]
  | delta d heq hat hd hdk hbase =>
    rw [if_neg (by simp [heq]), if_neg (by simp [hat])]
    refine (updateCurrent_spec { it with delta := advance it.direction it.delta } ⟨hbase, ?_⟩ hp hB
      ?_).after
      rfl (items_advance _) rfl fun _ _ => Iff.rfl
    · rw [items_advance, ← hdk]
      exact first_advance hD hd it.direction
    · rwa [items_advance]

omit [LinearOrder K] in
lemma reposition_base (it : DeltaAmendIterator K V) (hat : it.currentAtBase = true)
    (hvalid : it.base.valid = true) :
    it.reposition = { it with delta := cross it.direction it.delta } := by
  unfold DeltaAmendIterator.reposition cross
  cases hv : it.delta.valid <;> simp [hvalid, hat]

omit [LinearOrder K] in
lemma reposition_delta (it : DeltaAmendIterator K V) (hat : it.currentAtBase = false)
    (hvalid : it.delta.valid = true) :
    it.reposition = { it with base := cross it.direction it.base } := by
  unfold DeltaAmendIterator.reposition cross
  cases hv : it.base.valid <;> simp [hvalid, hat]

lemma Placed.turn (h : Placed it x) (hx : it.entry = some x) (hB : Ascending Prod.fst it.base.items)
    (hD : Ascending Delta.userKey it.delta.items) (dir : Direction) :
    (it.turn dir).base.items = it.base.items ∧ (it.turn dir).delta.items = it.delta.items ∧
      (it.turn dir).direction = dir ∧ Ready (it.turn dir) x.1 := by
  unfold DeltaAmendIterator.turn
  split_ifs with hdir
  · exact ⟨rfl, rfl, hdir, h.ready hx⟩
  · obtain ⟨hat, hcur⟩ | ⟨hat, d, hd, rfl⟩ := entry_cases hx
    · have hdelta := h.position.delta.turn hdir hD
      simp only [reposition_base { it with direction := dir, equalKeys := false } hat
        (Cursor.valid_of_current hcur)]
      refine ⟨trivial, items_cross dir, trivial, .base x ?_ hat hcur rfl (by rwa [items_cross])⟩
      rcases hc : (cross dir it.delta).current with _ | d
      · simp [DeltaAmendIterator.sameKey, hc]
      · rw [hc] at hdelta
        simp [DeltaAmendIterator.sameKey, hc, hcur, hdelta.2.1.ne.symm]
    · have hbase := h.position.base.turn hdir hB
      simp only [reposition_delta { it with direction := dir, equalKeys := false } hat
        (Cursor.valid_of_current hd)]
      refine ⟨items_cross dir, trivial, trivial, .delta d ?_ hat hd rfl (by rwa [items_cross])⟩
      rcases hc : (cross dir it.base).current with _ | b
      · simp [DeltaAmendIterator.sameKey, hc, hd]
      · rw [hc] at hbase
        simp [DeltaAmendIterator.sameKey, hc, hd, hbase.2.1.ne]

variable {B : List (K × V)} {D : List (Delta K V)}

structure Over (B : List (K × V)) (D : List (Delta K V)) (it : DeltaAmendIterator K V) : Prop where
  base : it.base.items = B
  delta : it.delta.items = D

structure InPlace (B : List (K × V)) (D : List (Delta K V)) (it : DeltaAmendIterator K V) :
    Prop extends Over B D it where
  placed : ∀ x, it.entry = some x → Placed it x

lemma Shows.inPlace {p : K → Prop} {it' : DeltaAmendIterator K V} (h : Shows p it it')
    (hit : Over B D it) :
    InPlace B D it' ∧ First it.direction Prod.fst (overlay B D) (fun x => p x.1) it'.entry := by
  refine ⟨⟨⟨h.baseItems.trans hit.base, h.deltaItems.trans hit.delta⟩, h.placed⟩, ?_⟩
  rw [← hit.base, ← hit.delta]
  exact h.entry

lemma move_spec (hB : Ascending Prod.fst B) (hD : Ascending Delta.userKey D) (hit : InPlace B D it)
    (hx : it.entry = some x) (dir : Direction) :
    InPlace B D (it.turn dir).advanceCurrent ∧
      First dir Prod.fst (overlay B D) (fun y => Ahead dir x.1 y.1)
        (it.turn dir).advanceCurrent.entry := by
  obtain ⟨hbase, hdelta, hdir, hready⟩ :=
    (hit.placed x hx).turn hx (hit.base ▸ hB) (hit.delta ▸ hD) dir
  have hbase := hbase.trans hit.base
  have hdelta := hdelta.trans hit.delta
  have hshows := (hready.advanceCurrent (hbase ▸ hB) (hdelta ▸ hD)).inPlace ⟨hbase, hdelta⟩
  rwa [hdir] at hshows

lemma deltaAmend_implements (hB : Ascending Prod.fst B) (hD : Ascending Delta.userKey D) :
    Implements Prod.fst Prod.fst (overlay B D) DeltaAmendIterator.call DeltaAmendIterator.entry
      (Over B D) (InPlace B D) where
  weaken it hit := hit.toOver
  seekToFirst it hit := by
    have hB : Ascending Prod.fst it.base.items := hit.base ▸ hB
    have hD : Ascending Delta.userKey it.delta.items := hit.delta ▸ hD
    have hshows := updateCurrent_spec (p := fun _ => True)
      { it with direction := .forward, base := it.base.seekToFirst, delta := it.delta.seekToFirst }
      ⟨first_start hB .forward, first_start hD .forward⟩ (fun _ _ _ _ => trivial) hB hD
    obtain ⟨hplace, hfirst⟩ := hshows.inPlace ⟨hit.base, hit.delta⟩
    exact ⟨_, rfl, hplace, first_forward.mp hfirst⟩
  seekToLast it hit := by
    have hB : Ascending Prod.fst it.base.items := hit.base ▸ hB
    have hD : Ascending Delta.userKey it.delta.items := hit.delta ▸ hD
    have hshows := updateCurrent_spec (p := fun _ => True)
      { it with direction := .reserve, base := it.base.seekToLast, delta := it.delta.seekToLast }
      ⟨first_start hB .reserve, first_start hD .reserve⟩ (fun _ _ _ _ => trivial) hB hD
    obtain ⟨hplace, hfirst⟩ := hshows.inPlace ⟨hit.base, hit.delta⟩
    exact ⟨_, rfl, hplace, first_reserve.mp hfirst⟩
  seek it target hit := by
    have hB : Ascending Prod.fst it.base.items := hit.base ▸ hB
    have hD : Ascending Delta.userKey it.delta.items := hit.delta ▸ hD
    have hshows := updateCurrent_spec (p := fun k => target ≤ k)
      { it with
        direction := .forward
        base := it.base.seek fun b => target ≤ b.1
        delta := it.delta.seek fun d => target ≤ d.userKey }
      ⟨first_forward.mpr (least_seekKey (fun _ _ h => h) hB target),
        first_forward.mpr (least_seekKey (fun _ _ h => h) hD target)⟩
      (fun a b ha hab => ha.trans (of_decide_eq_true hab)) hB hD
    obtain ⟨hplace, hfirst⟩ := hshows.inPlace ⟨hit.base, hit.delta⟩
    exact ⟨_, rfl, hplace, first_forward.mp hfirst⟩
  next it x hit hx := by
    obtain ⟨hplace, hfirst⟩ := move_spec hB hD hit hx .forward
    refine ⟨it.next, by simp [DeltaAmendIterator.call, hx], hplace,
      first_forward.mp (hfirst.congr fun y _ => ?_)⟩
    simp [Ahead, reaches]
  prev it x hit hx := by
    obtain ⟨hplace, hfirst⟩ := move_spec hB hD hit hx .reserve
    refine ⟨it.prev, by simp [DeltaAmendIterator.call, hx], hplace,
      first_reserve.mp (hfirst.congr fun y _ => ?_)⟩
    simp [Ahead, reaches]
  refused it _ hx := by simp [DeltaAmendIterator.call, hx]

end Calls

/-- After each call of a sequence that respects `Valid()` the iterator shows the same entry as a
cursor over the sorted overlay. A base iterator that is not fresh has to be positioned by the first
call. -/
theorem deltaAmendIterator_refines_cursor (base : Cursor (K × V)) (delta : Cursor (Delta K V))
    (hbase : Ascending Prod.fst base.items) (hdelta : Ascending Delta.userKey delta.items)
    (first : Call K) (calls : List (Call K)) (hfirst : base.valid = false ∨ first.isSeek = true) :
    (run DeltaAmendIterator.call (.new base delta) (first :: calls)).map DeltaAmendIterator.entry =
      (run (cursorCall Prod.fst) (.new (overlay base.items delta.items)) (first :: calls)).map
        Cursor.current := by
  have himplements := deltaAmend_implements hbase hdelta
  have hasc := ascending_overlay hbase hdelta
  have hmono : ∀ a b : K × V, a.1 ≤ b.1 → a.1 ≤ b.1 := fun _ _ h => h
  cases hseek : first.isSeek with
  | true => exact himplements.refines_seek hmono hasc ⟨rfl, rfl⟩ rfl hseek calls
  | false =>
    have hfresh := hfirst.resolve_right (by simp [hseek])
    have hentry : (DeltaAmendIterator.new base delta).entry = none :=
      Cursor.current_eq_none.mpr hfresh
    refine himplements.refines hmono hasc ⟨⟨rfl, rfl⟩, fun x hx => by simp [hentry] at hx⟩ rfl ?_ _
    simp [hentry, Cursor.new, Cursor.current]

theorem deltaAmendIterator_turnsBack :
    let base : Cursor (ℕ × ℕ) := .new [(1, 10), (2, 20), (4, 40)]
    let delta : Cursor (Delta ℕ ℕ) := .new [⟨2, .deletion, 0⟩, ⟨3, .value, 33⟩, ⟨4, .value, 44⟩]
    Ascending Prod.fst base.items ∧ Ascending Delta.userKey delta.items ∧
      (run DeltaAmendIterator.call (.new base delta) [.seek 2, .prev, .next, .next]).map
      DeltaAmendIterator.entry =
        some (some (4, 44)) := by
  intro base delta
  have hbase : Ascending Prod.fst base.items := by unfold Ascending; decide
  have hdelta : Ascending Delta.userKey delta.items := by unfold Ascending; decide
  refine ⟨hbase, hdelta,
    (deltaAmendIterator_refines_cursor base delta hbase hdelta _ _ (Or.inl rfl)).trans ?_⟩
  decide +kernel

end Mai.CoreDeltaAmend
