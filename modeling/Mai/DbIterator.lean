import Mai.CoreKeys
import Mai.OrderedIterator

/-! The iterator of a column family (`db/db-iterator.cc`) over an internal iterator, which lists the
versions of all keys in table order. -/
namespace Mai.DbIterator
open VersionedEntries CoreKeys ListCursor OrderedIterator Option

/-- The strings `saved_key_` and `saved_value_` are cleared to the default key and to no bytes. -/
structure DBIterator (K : Type*) where
  iter : Cursor (Entry K)
  lastSequenceNumber : ℕ
  savedKey : K
  savedValue : Bytes
  direction : Direction
  valid : Bool
  deriving DecidableEq, Repr

variable {K : Type*} [LinearOrder K]

namespace DBIterator

def key (it : DBIterator K) : Option K :=
  match it.direction with
  | .forward => it.iter.current.map Entry.userKey
  | .reserve => some it.savedKey

def value (it : DBIterator K) : Option Bytes :=
  match it.direction with
  | .forward => it.iter.current.map Entry.value
  | .reserve => some it.savedValue

def current (it : DBIterator K) : Option (K × Bytes) :=
  if it.valid then it.key.bind fun k => it.value.map fun v => (k, v) else none

section Operations
variable [Inhabited K]

def new (entries : List (Entry K)) (lastSequenceNumber : ℕ) : DBIterator K :=
  ⟨Cursor.new entries, lastSequenceNumber, default, [], .forward, false⟩

def findNextUserEntry (it : DBIterator K) (skipping : Bool) : DBIterator K :=
  match _h : it.iter.current with
  | none => { it with savedKey := default, valid := false }
  | some e =>
    if e.sequenceNumber ≤ it.lastSequenceNumber then
      match e.flag with
      | .deletion => findNextUserEntry { it with savedKey := e.userKey, iter := it.iter.next } true
      | .value =>
        if skipping = true ∧
          e.userKey ≤ it.savedKey then findNextUserEntry { it with iter := it.iter.next } skipping
        else { it with savedKey := default, valid := true }
      | .valueForSeek => findNextUserEntry { it with iter := it.iter.next } skipping
    else findNextUserEntry { it with iter := it.iter.next } skipping
termination_by it.iter.items.length - it.iter.index
decreasing_by
  all_goals
    have := Cursor.lt_of_current ‹_›
    simp only [Cursor.next]
    omega

def findPrevLoop (it : DBIterator K) (valueType : Flag) : DBIterator K × Flag :=
  match _h : it.iter.current with
  | none => (it, valueType)
  | some e =>
    if e.sequenceNumber ≤ it.lastSequenceNumber then
      if valueType ≠ .deletion ∧ e.userKey < it.savedKey then (it, valueType)
      else if e.flag = .deletion then
        findPrevLoop { it with savedKey := default, savedValue := [], iter := it.iter.prev } e.flag
      else findPrevLoop { it with
        savedKey := e.userKey, savedValue := e.value, iter := it.iter.prev } e.flag
    else findPrevLoop { it with iter := it.iter.prev } valueType
termination_by it.iter.behind
decreasing_by all_goals exact Cursor.behind_prev ‹_›

def findPrevUserEntry (it : DBIterator K) : DBIterator K :=
  let (it, valueType) := it.findPrevLoop .deletion
  if valueType = .deletion
    then { it with valid := false, savedKey := default, savedValue := [], direction := .forward }
  else { it with valid := true }

def seekToFirst (it : DBIterator K) : DBIterator K :=
  let it := { it with direction := .forward, savedValue := [], iter := it.iter.seekToFirst }
  if it.iter.valid then it.findNextUserEntry false else { it with valid := false }

def seekToLast (it : DBIterator K) : DBIterator K :=
  { it with direction := .reserve, savedValue := [], iter := it.iter.seekToLast }.findPrevUserEntry

def seek (it : DBIterator K) (target : K) : DBIterator K :=
  let key := makeKey target it.lastSequenceNumber .valueForSeek
  let iter := it.iter.seek fun e => e.key.compare key ≠ .lt
  let it := { it with direction := .forward, savedValue := [], savedKey := default, iter := iter }
  if it.iter.valid then it.findNextUserEntry false else { it with valid := false }

def next (it : DBIterator K) : DBIterator K :=
  match it.direction with
  | .reserve =>
    let iter := if it.iter.valid then it.iter.next else it.iter.seekToFirst
    let it := { it with direction := .forward, iter := iter }
    if it.iter.valid then it.findNextUserEntry true
    else { it with valid := false, savedKey := default }
  | .forward =>
    match it.iter.current with
    | none => it
    | some e => { it with savedKey := e.userKey }.findNextUserEntry true

def scanBackward (savedKey : K) (iter : Cursor (Entry K)) : Cursor (Entry K) :=
  match _h : iter.current with
  | none => iter
  | some e => if e.userKey < savedKey then iter else scanBackward savedKey iter.prev
termination_by iter.behind
decreasing_by exact Cursor.behind_prev ‹_›

def prev (it : DBIterator K) : DBIterator K :=
  match it.direction with
  | .reserve => it.findPrevUserEntry
  | .forward =>
    match it.iter.current with
    | none => it
    | some e =>
      let it := { it with savedKey := e.userKey, iter := scanBackward e.userKey it.iter.prev }
      if it.iter.valid then { it with direction := .reserve }.findPrevUserEntry
      else { it with valid := false, savedKey := default, savedValue := [] }

def call (it : DBIterator K) : Call K → Option (DBIterator K)
  | .seekToFirst => some it.seekToFirst
  | .seekToLast => some it.seekToLast
  | .seek target => some (it.seek target)
  | .next => if it.valid then some it.next else none
  | .prev => if it.valid then some it.prev else none

variable {it : DBIterator K} {skipping : Bool} {valueType : Flag} {e : Entry K}

lemma findNext_none (h : it.iter.current = none) :
    it.findNextUserEntry skipping = { it with savedKey := default, valid := false } := by
  rw [findNextUserEntry]
  split
  · rfl
  · simp_all

lemma findNext_some (h : it.iter.current = some e) : it.findNextUserEntry skipping =
    if e.sequenceNumber ≤ it.lastSequenceNumber then
      match e.flag with
      | .deletion => findNextUserEntry { it with savedKey := e.userKey, iter := it.iter.next } true
      | .value =>
        if skipping = true ∧
        e.userKey ≤ it.savedKey then findNextUserEntry { it with iter := it.iter.next } skipping
        else { it with savedKey := default, valid := true }
      | .valueForSeek => findNextUserEntry { it with iter := it.iter.next } skipping
    else findNextUserEntry { it with iter := it.iter.next } skipping := by
  rw [findNextUserEntry]
  split
  · simp_all
  · next e' he' =>
    obtain rfl : e = e' := Option.some.inj (h.symm.trans he')
    rfl

lemma findPrevLoop_none (h : it.iter.current = none) :
    it.findPrevLoop valueType = (it, valueType) := by
  rw [findPrevLoop]
  split
  · rfl
  · simp_all

lemma findPrevLoop_some (h : it.iter.current = some e) : it.findPrevLoop valueType =
    if e.sequenceNumber ≤ it.lastSequenceNumber then
      if valueType ≠ .deletion ∧ e.userKey < it.savedKey then (it, valueType)
      else if e.flag = .deletion then
        findPrevLoop { it with savedKey := default, savedValue := [], iter := it.iter.prev } e.flag
      else findPrevLoop { it with
        savedKey := e.userKey, savedValue := e.value, iter := it.iter.prev } e.flag
    else findPrevLoop { it with iter := it.iter.prev } valueType := by
  rw [findPrevLoop]
  split
  · simp_all
  · next e' he' =>
    obtain rfl : e = e' := Option.some.inj (h.symm.trans he')
    rfl

end Operations

end DBIterator

section Reads
variable {l pre post : List (Entry K)} {k : K} {s : ℕ} {e : Entry K}

lemma readAt_cons (h : OrderedEntries (e :: l)) : readAt (e :: l) k s =
    if e.userKey = k ∧ e.sequenceNumber ≤ s then answer (some e) else readAt l k s := by
  rw [readAt, readAt, Stamp.newest, Stamp.newest, List.filter_cons]
  by_cases hv : e.userKey = k ∧ e.sequenceNumber ≤ s
  · rw [if_pos hv, if_pos (Stamp.visible_iff.mpr hv), List.argmax_cons]
    rcases hmax : List.argmax entryStamp.seq (l.filter (entryStamp.visible k s)) with _ | c
    · rfl
    · have hc := List.mem_filter.mp (List.argmax_mem hmax)
      have hck := (Stamp.visible_iff.mp hc.2).1
      have hle : ¬ entryStamp.seq e < entryStamp.seq c := by
        rcases Entry.not_before_iff.mp ((List.pairwise_cons.mp h).1 c hc.1) with hlt | ⟨-, hle⟩
        · exact absurd (hv.1.trans hck.symm) hlt.ne
        · exact not_lt.mpr hle
      exact congrArg answer (if_neg hle)
  · rw [if_neg hv, if_neg (fun hvis => hv (Stamp.visible_iff.mp hvis))]

lemma readAt_append (h : ∀ e ∈ pre, e.userKey = k → s < e.sequenceNumber) :
    readAt (pre ++ post) k s = readAt post k s := by
  have hnone : pre.filter (entryStamp.visible k s) = [] :=
    List.filter_eq_nil_iff.mpr fun a ha hv => by
      obtain ⟨hk, hs⟩ := Stamp.visible_iff.mp hv
      exact absurd hs (not_le.mpr (h a ha hk))
  rw [readAt, readAt, Stamp.newest, Stamp.newest, List.filter_append, hnone, List.nil_append]

lemma readAt_eq_none (h : ∀ e ∈ l, e.userKey = k → s < e.sequenceNumber) : readAt l k s = none := by
  rw [readAt, Stamp.newest_eq_none.mpr h]
  rfl

lemma Entry.le_of_not_before {a b : Entry K} (h : ¬ Entry.Before b a) : a.userKey ≤ b.userKey := by
  rcases Entry.not_before_iff.mp h with hlt | ⟨heq, -⟩
  · exact hlt.le
  · exact heq.le

lemma OrderedEntries.userKey_le (h : OrderedEntries (e :: l)) {a : Entry K} (ha : a ∈ e :: l) :
    e.userKey ≤ a.userKey := by
  rcases List.mem_cons.mp ha with rfl | ha
  · exact le_rfl
  · exact Entry.le_of_not_before ((List.pairwise_cons.mp h).1 a ha)

/-- The user keys whose newest version at or below `s` is a put, in ascending order, with that
value. -/
def visibleList (l : List (Entry K)) (s : ℕ) : List (K × Bytes) :=
  (l.map Entry.userKey).dedup.filterMap fun k => (readAt l k s).map fun v => (k, v)

lemma mem_visibleList {x : K × Bytes} : x ∈ visibleList l s ↔ readAt l x.1 s = some x.2 := by
  simp only [visibleList, List.mem_filterMap, List.mem_dedup, List.mem_map, map_eq_some_iff]
  constructor
  · rintro ⟨k, -, v, hv, rfl⟩
    exact hv
  · intro h
    refine ⟨x.1, ?_, x.2, h, rfl⟩
    by_contra hk
    push Not at hk
    rw [readAt_eq_none fun e he heq => absurd heq (hk e he)] at h
    simp at h

lemma visibleList_ascending (h : OrderedEntries l) (s : ℕ) :
    Ascending Prod.fst (visibleList l s) := by
  have hle : (l.map Entry.userKey).Pairwise (· ≤ ·) := by
    exact List.pairwise_map.mpr (List.Pairwise.imp (fun {a b} hab => Entry.le_of_not_before hab) h)
  have hlt : (l.map Entry.userKey).dedup.Pairwise (· < ·) :=
    ((hle.sublist (List.dedup_sublist _)).and (List.nodup_dedup _)).imp fun {a b} hab =>
      lt_of_le_of_ne hab.1 hab.2
  refine List.Pairwise.filterMap _ (fun a b hab x hx y hy => ?_) hlt
  obtain ⟨v, -, rfl⟩ := map_eq_some_iff.mp hx
  obtain ⟨w, -, rfl⟩ := map_eq_some_iff.mp hy
  exact hab

end Reads

namespace DBIterator
variable {l : List (Entry K)} {s : ℕ} {it : DBIterator K} {skipping : Bool} {valueType : Flag}
  {p : K → Prop}

def Placed (it : DBIterator K) : Prop :=
  match it.direction with
  | .forward => it.iter.valid = true
  | .reserve => (∀ e ∈ it.iter.upTo, e.userKey < it.savedKey) ∧
      ∀ e ∈ it.iter.after, e.sequenceNumber ≤ it.lastSequenceNumber → it.savedKey ≤ e.userKey

/-- An iterator over the entries `l` at the snapshot `s`, after any call. -/
structure Over (l : List (Entry K)) (s : ℕ) (it : DBIterator K) : Prop where
  items : it.iter.items = l
  snapshot : it.lastSequenceNumber = s
  placed : it.valid = true → it.Placed

/-- What a search for the next user entry relies on: `p` holds of the keys asked for. -/
structure Ahead (l : List (Entry K)) (s : ℕ) (p : K → Prop) (it : DBIterator K) (skipping : Bool) :
    Prop where
  items : it.iter.items = l
  snapshot : it.lastSequenceNumber = s
  forward : it.direction = .forward
  unread : ∀ k, p k → ¬ (skipping = true ∧ k ≤ it.savedKey) → readAt l k s = readAt it.iter.rest k s
  hidden : ∀ k, p k → skipping = true ∧ k ≤ it.savedKey → readAt l k s = none
  below : ∀ e ∈ it.iter.rest, e.sequenceNumber ≤ s → ¬ p e.userKey → skipping = true ∧
    e.userKey ≤ it.savedKey
  above : skipping = true → ∀ e ∈ it.iter.rest, e.sequenceNumber ≤ s → it.savedKey ≤ e.userKey

lemma Ahead.least_none (h : Ahead l s p it skipping) (hrest : it.iter.rest = []) :
    Least Prod.fst (visibleList l s) (fun x => p x.1) none := by
  intro x hx hp
  rw [mem_visibleList] at hx
  by_cases hskip : skipping = true ∧ x.1 ≤ it.savedKey
  · rw [h.hidden x.1 hp hskip] at hx
    simp at hx
  · rw [h.unread x.1 hp hskip, hrest] at hx
    simp [readAt, Stamp.newest, answer] at hx

section
variable {e : Entry K}

lemma ordered_rest (hl : OrderedEntries l) {c : Cursor (Entry K)} (h : c.items = l) :
    OrderedEntries c.rest := by
  subst h
  exact hl.drop

lemma Ahead.pass (hl : OrderedEntries l) (h : Ahead l s p it skipping)
    (he : it.iter.current = some e) (hpass : ∀ k, ¬ (skipping = true ∧ k ≤ it.savedKey) →
      ¬ (e.userKey = k ∧ e.sequenceNumber ≤ s)) :
    Ahead l s p { it with iter := it.iter.next } skipping := by
  have hrest := Cursor.rest_of_current he
  have hordered := ordered_rest hl h.items
  have hmem : ∀ a ∈ it.iter.next.rest, a ∈ it.iter.rest := fun a ha => by simp [hrest, ha]
  refine { h with
    unread := fun k hk hskip => ?_
    below := fun a ha => h.below a (hmem a ha)
    above := fun hskip a ha => h.above hskip a (hmem a ha) }
  rw [hrest] at hordered
  rw [h.unread k hk hskip, hrest, readAt_cons hordered, if_neg (hpass k hskip)]

lemma Ahead.deletion (hl : OrderedEntries l) (h : Ahead l s p it skipping)
    (he : it.iter.current = some e) (hs : e.sequenceNumber ≤ s) (hflag : e.flag = .deletion) :
    Ahead l s p { it with savedKey := e.userKey, iter := it.iter.next } true := by
  have hrest := Cursor.rest_of_current he
  have hordered := ordered_rest hl h.items
  have hmem : ∀ a ∈ it.iter.next.rest, a ∈ it.iter.rest := fun a ha => by simp [hrest, ha]
  have hskip : skipping = true → it.savedKey ≤ e.userKey :=
    fun hskip => h.above hskip e (by simp [hrest]) hs
  rw [hrest] at hordered
  refine ⟨h.items, h.snapshot, h.forward, fun k hk hk' => ?_, fun k hk hk' => ?_,
    fun a ha hv hp => ⟨rfl, ?_⟩,
    fun _ a ha _ => OrderedEntries.userKey_le hordered (List.mem_cons_of_mem e ha)⟩
  · have hlt : e.userKey < k := not_le.mp fun hle => hk' ⟨rfl, hle⟩
    rw [h.unread k hk fun hk'' => absurd (hk''.2.trans (hskip hk''.1)) (not_le.mpr hlt), hrest,
      readAt_cons hordered, if_neg fun hv => hlt.ne hv.1]
  · by_cases hk'' : skipping = true ∧ k ≤ it.savedKey
    · exact h.hidden k hk hk''
    · rw [h.unread k hk hk'', hrest, readAt_cons hordered]
      split_ifs with hv
      · simp [answer, hflag]
      · refine readAt_eq_none fun a ha hak => ?_
        have hle := OrderedEntries.userKey_le hordered (List.mem_cons_of_mem e ha)
        exact absurd ⟨le_antisymm (hle.trans hak.le) hk'.2, hs⟩ hv
  · obtain ⟨hskip', hle⟩ := h.below a (hmem a ha) hv hp
    exact hle.trans (hskip hskip')

lemma Ahead.least_some (hl : OrderedEntries l) (h : Ahead l s p it skipping)
    (he : it.iter.current = some e) (hs : e.sequenceNumber ≤ s) (hflag : e.flag = .value)
    (hskip : ¬ (skipping = true ∧ e.userKey ≤ it.savedKey)) :
    Least Prod.fst (visibleList l s) (fun x => p x.1) (some (e.userKey, e.value)) := by
  have hrest := Cursor.rest_of_current he
  have hordered := ordered_rest hl h.items
  have hp : p e.userKey := by
    by_contra hp
    exact hskip (h.below e (by simp [hrest]) hs hp)
  rw [hrest] at hordered
  refine ⟨?_, hp, fun x hx hpx => ?_⟩
  · rw [mem_visibleList, h.unread _ hp hskip, hrest, readAt_cons hordered, if_pos ⟨rfl, hs⟩]
    simp [answer, hflag]
  · rw [mem_visibleList] at hx
    by_contra hlt
    by_cases hx' : skipping = true ∧ x.1 ≤ it.savedKey
    · rw [h.hidden x.1 hpx hx'] at hx
      simp at hx
    · rw [h.unread x.1 hpx hx', hrest, readAt_eq_none fun a ha hak => ?_] at hx
      · simp at hx
      · exact absurd ((OrderedEntries.userKey_le hordered ha).trans hak.le) hlt

end

structure Behind (l : List (Entry K)) (s : ℕ) (p : K → Prop) (it : DBIterator K)
    (valueType : Flag) : Prop where
  items : it.iter.items = l
  snapshot : it.lastSequenceNumber = s
  reserve : it.direction = .reserve
  others : ∀ k v, p k → readAt it.iter.after k s = some v → valueType ≠ .deletion ∧ k = it.savedKey
  saved : valueType ≠ .deletion → p it.savedKey ∧ readAt it.iter.after it.savedKey s =
    some it.savedValue ∧
    ∀ e ∈ it.iter.after, e.sequenceNumber ≤ s → it.savedKey ≤ e.userKey
  below : ∀ e ∈ it.iter.upTo, e.sequenceNumber ≤ s → p e.userKey

section
variable {e : Entry K}

lemma ordered_after (hl : OrderedEntries l) {c : Cursor (Entry K)} (h : c.items = l) :
    OrderedEntries c.after := by
  subst h
  rw [← Cursor.upTo_append_after (c := c)] at hl
  exact (List.pairwise_append.mp hl).2.1

lemma upTo_userKey_le (hl : OrderedEntries l) {c : Cursor (Entry K)} (h : c.items = l)
    (he : c.current = some e) {a : Entry K} (ha : a ∈ c.upTo) : a.userKey ≤ e.userKey := by
  subst h
  rw [← Cursor.upTo_append_after (c := c), (Cursor.upTo_of_current he).1] at hl
  have hupTo := (List.pairwise_append.mp (List.pairwise_append.mp hl).1).2.2
  rw [(Cursor.upTo_of_current he).1] at ha
  rcases List.mem_append.mp ha with ha | ha
  · exact Entry.le_of_not_before (hupTo a ha e (by simp))
  · rw [List.mem_singleton.mp ha]

lemma Behind.invisible (h : Behind l s p it valueType) (he : it.iter.current = some e)
    (hs : ¬ e.sequenceNumber ≤ s) : Behind l s p { it with iter := it.iter.prev } valueType := by
  obtain ⟨hupTo, hafter⟩ := Cursor.upTo_of_current he
  have hread : ∀ k, readAt it.iter.prev.after k s = readAt it.iter.after k s := fun k => by
    rw [hafter, ← List.singleton_append, readAt_append fun a ha _ => ?_]
    rw [List.mem_singleton.mp ha]
    exact not_le.mp hs
  refine { h with
    others := fun k v hk hv => h.others k v hk ((hread k).symm.trans hv)
    saved := fun hvt => ?_
    below := fun a ha => h.below a (by simp [hupTo, ha]) }
  obtain ⟨hp, hv, hle⟩ := h.saved hvt
  refine ⟨hp, (hread _).trans hv, fun a ha has => ?_⟩
  rw [show it.iter.prev.after = e :: it.iter.after from hafter] at ha
  rcases List.mem_cons.mp ha with rfl | ha
  · exact absurd has hs
  · exact hle a ha has

lemma Behind.visible (hl : OrderedEntries l) (h : Behind l s p it valueType)
    (he : it.iter.current = some e) (hs : e.sequenceNumber ≤ s)
    (hstop : ¬ (valueType ≠ .deletion ∧ e.userKey < it.savedKey)) (savedKey : K)
    (savedValue : Bytes)
    (hsaved : e.flag ≠ .deletion → savedKey = e.userKey ∧ savedValue = e.value) :
    Behind l s p { it with
      savedKey := savedKey, savedValue := savedValue, iter := it.iter.prev } e.flag := by
  obtain ⟨hupTo, hafter⟩ := Cursor.upTo_of_current he
  have hordered : OrderedEntries (e :: it.iter.after) := hafter ▸ ordered_after hl h.items
  refine ⟨h.items, h.snapshot, h.reserve, fun k v hk hv => ?_, fun hf => ?_,
    fun a ha => h.below a (by simp [hupTo, ha])⟩
  · rw [hafter, readAt_cons hordered] at hv
    split_ifs at hv with hek
    · have hf : e.flag ≠ .deletion := fun hf => by simp [answer, hf] at hv
      exact ⟨hf, by rw [← hek.1, (hsaved hf).1]⟩
    · exfalso
      obtain ⟨hvt, rfl⟩ := h.others k v hk hv
      have hge : it.savedKey ≤ e.userKey := not_lt.mp fun hlt => hstop ⟨hvt, hlt⟩
      have hle : e.userKey ≤ it.savedKey := by
        by_contra hlt
        rw [readAt_eq_none fun a ha hak => ?_] at hv
        · simp at hv
        · exact absurd ((OrderedEntries.userKey_le hordered (List.mem_cons_of_mem e ha)).trans
            hak.le) hlt
      exact hek ⟨le_antisymm hle hge, hs⟩
  · obtain ⟨rfl, rfl⟩ := hsaved hf
    refine ⟨h.below e (by simp [hupTo]) hs, ?_,
      fun a ha _ => OrderedEntries.userKey_le hordered (hafter ▸ ha)⟩
    rw [hafter, readAt_cons hordered, if_pos ⟨rfl, hs⟩]
    simp [answer, hf]

lemma Behind.found (h : Behind l s p it valueType)
    (hdone : ∀ e ∈ it.iter.upTo, e.userKey < it.savedKey) (hvt : valueType ≠ .deletion) :
    Greatest Prod.fst (visibleList l s) (fun x => p x.1) (some (it.savedKey, it.savedValue)) := by
  obtain ⟨hp, hv, -⟩ := h.saved hvt
  have hread : ∀ k, it.savedKey ≤ k → readAt l k s = readAt it.iter.after k s := fun k hk => by
    rw [← h.items, ← Cursor.upTo_append_after (c := it.iter), readAt_append fun a ha hak => ?_]
    exact absurd (hak ▸ hk) (not_le.mpr (hdone a ha))
  refine ⟨mem_visibleList.mpr ((hread _ le_rfl).trans hv), hp, fun x hx hpx => ?_⟩
  rw [OrderDual.toDual_le_toDual]
  by_contra hlt
  rw [mem_visibleList, hread x.1 (not_le.mp hlt).le] at hx
  exact hlt (h.others x.1 x.2 hpx hx).2.le

lemma Behind.notFound (h : Behind l s p it .deletion) (hdone : it.iter.upTo = []) :
    Greatest Prod.fst (visibleList l s) (fun x => p x.1) none := by
  intro x hx hpx
  rw [mem_visibleList, ← h.items, ← Cursor.upTo_append_after (c := it.iter), hdone,
    List.nil_append] at hx
  exact (h.others x.1 x.2 hpx hx).1 rfl

end

section Search
variable [Inhabited K] {x : K × Bytes}

lemma findNextUserEntry_spec (hl : OrderedEntries l) (hflag : ∀ e ∈ l, e.flag ≠ .valueForSeek)
    (h : Ahead l s p it skipping) : Over l s (it.findNextUserEntry skipping) ∧
      Least Prod.fst (visibleList l s) (fun x => p x.1)
        (it.findNextUserEntry skipping).current := by
  induction hrest : it.iter.rest generalizing it skipping with
  | nil =>
    have hnone : it.iter.current = none := by rw [Cursor.current_eq_head, hrest]; rfl
    rw [findNext_none hnone]
    exact ⟨⟨h.items, h.snapshot, by simp⟩, h.least_none hrest⟩
  | cons e rest ih =>
    have he : it.iter.current = some e := by rw [Cursor.current_eq_head, hrest]; rfl
    have hnext : it.iter.next.rest = rest := by
      rw [Cursor.rest_of_current he] at hrest
      exact (List.cons.inj hrest).2
    have hmem : e ∈ l := by
      rw [← h.items]
      exact List.mem_of_mem_drop (by rw [← Cursor.rest, hrest]; simp)
    rw [findNext_some he]
    by_cases hs : e.sequenceNumber ≤ it.lastSequenceNumber
    · have hs' : e.sequenceNumber ≤ s := h.snapshot ▸ hs
      rw [if_pos hs]
      cases hf : e.flag with
      | deletion => exact ih (h.deletion hl he hs' hf) hnext
      | value =>
        by_cases hskip : skipping = true ∧ e.userKey ≤ it.savedKey
        · simp only [if_pos hskip]
          exact ih (h.pass hl he fun k hk hv => hk (hv.1 ▸ hskip)) hnext
        · simp only [if_neg hskip]
          refine ⟨⟨h.items, h.snapshot, fun _ => ?_⟩, ?_⟩
          · simp only [Placed, h.forward]
            exact Cursor.valid_of_current he
          · simp only [current, key, value, h.forward, he]
            exact h.least_some hl he hs' hf hskip
      | valueForSeek => exact absurd hf (hflag e hmem)
    · rw [if_neg hs]
      exact ih (h.pass hl he fun k _ hv => hs (h.snapshot ▸ hv.2)) hnext

lemma findPrevLoop_spec (hl : OrderedEntries l) (h : Behind l s p it valueType) :
    Behind l s p (it.findPrevLoop valueType).1 (it.findPrevLoop valueType).2 ∧
      ∀ e ∈ (it.findPrevLoop valueType).1.iter.upTo, (it.findPrevLoop valueType).2 ≠ .deletion ∧
        e.userKey < (it.findPrevLoop valueType).1.savedKey := by
  induction hn : it.iter.behind using Nat.strong_induction_on generalizing it valueType with
  | _ n ih =>
    rcases he : it.iter.current with _ | e
    · rw [findPrevLoop_none he]
      exact ⟨h, by simp [(Cursor.upTo_of_invalid he).1]⟩
    · have hlt : it.iter.prev.behind < n := hn ▸ Cursor.behind_prev he
      rw [findPrevLoop_some he]
      by_cases hs : e.sequenceNumber ≤ it.lastSequenceNumber
      · have hs' : e.sequenceNumber ≤ s := h.snapshot ▸ hs
        rw [if_pos hs]
        by_cases hstop : valueType ≠ .deletion ∧ e.userKey < it.savedKey
        · rw [if_pos hstop]
          exact ⟨h, fun a ha => ⟨hstop.1, (upTo_userKey_le hl h.items he ha).trans_lt hstop.2⟩⟩
        · rw [if_neg hstop]
          by_cases hf : e.flag = .deletion
          · rw [if_pos hf]
            exact ih _ hlt (h.visible hl he hs' hstop _ _ fun hne => absurd hf hne) rfl
          · rw [if_neg hf]
            exact ih _ hlt (h.visible hl he hs' hstop _ _ fun _ => ⟨rfl, rfl⟩) rfl
      · rw [if_neg hs]
        exact ih _ hlt (h.invisible he (h.snapshot ▸ hs)) rfl

lemma findPrevUserEntry_spec (hl : OrderedEntries l) (h : Behind l s p it .deletion) :
    Over l s it.findPrevUserEntry ∧
      Greatest Prod.fst (visibleList l s) (fun x => p x.1) it.findPrevUserEntry.current := by
  obtain ⟨hloop, hdone⟩ := findPrevLoop_spec hl h
  rw [findPrevUserEntry]
  rcases hres : it.findPrevLoop .deletion with ⟨it', valueType⟩
  rw [hres] at hloop hdone
  simp only at hloop hdone ⊢
  split_ifs with hvt
  · subst hvt
    refine ⟨⟨hloop.items, hloop.snapshot, by simp⟩, hloop.notFound ?_⟩
    exact List.eq_nil_iff_forall_not_mem.mpr fun e he => (hdone e he).1 rfl
  · refine ⟨⟨hloop.items, hloop.snapshot, fun _ => ?_⟩, ?_⟩
    · simp only [Placed, hloop.reserve]
      exact ⟨fun e he => (hdone e he).2, hloop.snapshot ▸ (hloop.saved hvt).2.2⟩
    · simp only [current, key, value, hloop.reserve]
      exact hloop.found (fun e he => (hdone e he).2) hvt

lemma findNextIfValid_spec (hl : OrderedEntries l) (hflag : ∀ e ∈ l, e.flag ≠ .valueForSeek)
    (h : Ahead l s p it skipping) {it' : DBIterator K} (hitems : it'.iter.items = l)
    (hsnapshot : it'.lastSequenceNumber = s) (hinvalid : it'.valid = false) :
    Over l s (if it.iter.valid then it.findNextUserEntry skipping else it') ∧
      Least Prod.fst (visibleList l s)
      (fun x => p x.1) (if it.iter.valid then it.findNextUserEntry skipping else it').current := by
  split_ifs with hvalid
  · exact findNextUserEntry_spec hl hflag h
  · have hrest : it.iter.rest = [] := by
      rw [← List.head?_eq_none_iff, ← Cursor.current_eq_head, Cursor.current_eq_none]
      simpa using hvalid
    refine ⟨⟨hitems, hsnapshot, by simp [hinvalid]⟩, ?_⟩
    simp only [current, hinvalid, Bool.false_eq_true, if_false]
    exact h.least_none hrest

lemma seekToFirst_spec (hl : OrderedEntries l) (hflag : ∀ e ∈ l, e.flag ≠ .valueForSeek)
    (h : Over l s it) :
    Over l s it.seekToFirst ∧
      Least Prod.fst (visibleList l s) (fun _ => True) it.seekToFirst.current := by
  have hahead : Ahead l s (fun _ => True)
      { it with direction := .forward, savedValue := [], iter := it.iter.seekToFirst } false := {
    items := h.items
    snapshot := h.snapshot
    forward := rfl
    unread := fun k _ _ => by rw [← h.items]; rfl
    hidden := by simp
    below := by simp
    above := by simp }
  exact findNextIfValid_spec hl hflag hahead h.items h.snapshot rfl

lemma seek_spec (hl : OrderedEntries l) (hflag : ∀ e ∈ l, e.flag ≠ .valueForSeek) (h : Over l s it)
    (target : K) :
    Over l s (it.seek target) ∧
      Least Prod.fst (visibleList l s) (fun x => target ≤ x.1) (it.seek target).current := by
  let t : Entry K → Bool :=
    fun e => e.key.compare (makeKey target it.lastSequenceNumber .valueForSeek) ≠ .lt
  have ht : ∀ e, t e = true ↔ target < e.userKey ∨ e.userKey = target ∧ e.sequenceNumber ≤ s :=
    fun e => by
    rw [← h.snapshot, ← not_before_seekKey, decide_eq_true_iff]
  obtain ⟨hbefore, hrest⟩ := seek_split (c := it.iter) (t := t) (h.items ▸ hl) fun a b hab ha => by
    rw [ht] at ha ⊢
    rcases Entry.not_before_iff.mp hab with hlt | ⟨heq, hle⟩
    · exact Or.inl (ha.elim (·.trans hlt) fun ha => ha.1 ▸ hlt)
    · exact ha.imp (heq ▸ ·) fun ha => ⟨heq ▸ ha.1, hle.trans ha.2⟩
  have hahead : Ahead l s (fun k => target ≤ k) { it with
      direction := .forward, savedValue := [], savedKey := default, iter :=
        it.iter.seek t } false := {
    items := h.items
    snapshot := h.snapshot
    forward := rfl
    unread := fun k hk _ => by
      rw [← h.items, ← List.take_append_drop (it.iter.seek t).index it.iter.items,
        readAt_append fun a ha hak => ?_]
      · rfl
      · by_contra hs
        have hfalse := hbefore a ha
        have htrue : t a = true :=
          (ht a).mpr (hk.lt_or_eq.imp (hak ▸ ·) fun heq => ⟨hak.trans heq.symm, not_lt.mp hs⟩)
        simp [hfalse] at htrue
    hidden := by simp
    below := fun a ha _ hnot => absurd (((ht a).mp (hrest a ha)).elim le_of_lt fun ha => ha.1.ge)
      hnot
    above := by simp }
  exact findNextIfValid_spec hl hflag hahead h.items h.snapshot rfl

omit [Inhabited K] in
lemma behind_saved (it : DBIterator K) (h : it.iter.items = l)
    (hsnapshot : it.lastSequenceNumber = s) (hreserve : it.direction = .reserve)
    (hplaced : it.Placed) : Behind l s (fun k => k < it.savedKey) it .deletion := by
  simp only [Placed, hreserve] at hplaced
  refine ⟨h, hsnapshot, hreserve, fun k v hk hv => ?_, by simp, fun e he _ => hplaced.1 e he⟩
  rw [readAt_eq_none fun a ha hak => ?_] at hv
  · simp at hv
  · by_contra hs
    exact absurd (hak ▸ hplaced.2 a ha (hsnapshot.symm ▸ not_lt.mp hs)) (not_le.mpr hk)

omit [Inhabited K] in
lemma scanBackward_spec (hl : OrderedEntries l) {c : Cursor (Entry K)} {k : K} (h : c.items = l)
    (hafter : ∀ e ∈ c.after, k ≤ e.userKey) : (scanBackward k c).items = l ∧
      (∀ e ∈ (scanBackward k c).upTo, e.userKey < k) ∧ ∀ e ∈ (scanBackward k c).after,
        k ≤ e.userKey := by
  induction hn : c.behind using Nat.strong_induction_on generalizing c with
  | _ n ih =>
    rw [scanBackward]
    split
    · next hcur => exact ⟨h, by simp [(Cursor.upTo_of_invalid hcur).1], hafter⟩
    · next e he =>
      split_ifs with hlt
      · exact ⟨h, fun a ha => (upTo_userKey_le hl h he ha).trans_lt hlt, hafter⟩
      · refine ih _ (hn ▸ Cursor.behind_prev he) h (fun a ha => ?_) rfl
        rw [(Cursor.upTo_of_current he).2] at ha
        rcases List.mem_cons.mp ha with rfl | ha
        · exact not_lt.mp hlt
        · exact hafter a ha

lemma seekToLast_spec (hl : OrderedEntries l) (h : Over l s it) :
    Over l s it.seekToLast ∧
      Greatest Prod.fst (visibleList l s) (fun _ => True) it.seekToLast.current := by
  have hbehind : Behind l s (fun _ => True)
      { it with direction := .reserve, savedValue := [], iter := it.iter.seekToLast } .deletion := {
    items := h.items
    snapshot := h.snapshot
    reserve := rfl
    others := fun k v _ hv => by simp [Cursor.after_seekToLast, readAt, Stamp.newest, answer] at hv
    saved := by simp
    below := by simp }
  exact findPrevUserEntry_spec hl hbehind

omit [LinearOrder K] [Inhabited K] in
lemma valid_of_current (hx : it.current = some x) : it.valid = true := by
  by_contra hinvalid
  simp [current, hinvalid] at hx

omit [Inhabited K] in
lemma Over.current_forward (h : Over l s it) (hdir : it.direction = .forward)
    (hx : it.current = some x) :
    ∃ e, it.iter.current = some e ∧ (e.userKey, e.value) = x := by
  have hplaced := h.placed (valid_of_current hx)
  simp only [Placed, hdir] at hplaced
  obtain ⟨e, he⟩ := isSome_iff_exists.mp (Cursor.current_isSome.trans hplaced)
  exact ⟨e, he, by simpa [current, key, value, valid_of_current hx, hdir, he] using hx⟩

lemma next_spec (hl : OrderedEntries l) (hflag : ∀ e ∈ l, e.flag ≠ .valueForSeek) (h : Over l s it)
    (hx : it.current = some x) : Over l s it.next ∧
      Least Prod.fst (visibleList l s) (fun y => x.1 < y.1) it.next.current := by
  have hvalid := valid_of_current hx
  have hplaced := h.placed hvalid
  cases hdir : it.direction with
  | reserve =>
    simp only [Placed, hdir] at hplaced
    obtain rfl : (it.savedKey, it.savedValue) = x := by
      simpa [current, key, value, hvalid, hdir] using hx
    have hahead : Ahead l s (fun k => it.savedKey < k) { it with
        direction := .forward, iter := if it.iter.valid then it.iter.next else it.iter.seekToFirst }
          true := {
      items := by rw [← h.items]; dsimp only; split_ifs <;> rfl
      snapshot := h.snapshot
      forward := rfl
      unread := fun k hk _ => by
        rw [Cursor.rest_afterwards, ← h.items, ← Cursor.upTo_append_after (c := it.iter),
          readAt_append fun a ha hak => ?_]
        exact absurd (hplaced.1 a ha) (not_lt.mpr (hak ▸ hk.le))
      hidden := fun k hk hle => absurd hle.2 (not_le.mpr hk)
      below := fun a _ _ hnot => ⟨rfl, not_lt.mp hnot⟩
      above := fun _ a ha hs =>
        hplaced.2 a (Cursor.rest_afterwards (c := it.iter) ▸ ha) (h.snapshot.symm ▸ hs) }
    rw [next, hdir]
    exact findNextIfValid_spec hl hflag hahead hahead.items h.snapshot rfl
  | forward =>
    obtain ⟨e, he, rfl⟩ := h.current_forward hdir hx
    have hrest := Cursor.rest_of_current he
    have hordered := ordered_rest hl h.items
    have hahead : Ahead l s (fun k => e.userKey < k) { it with savedKey := e.userKey } true := {
      items := h.items
      snapshot := h.snapshot
      forward := hdir
      unread := fun k hk _ => by
        rw [← h.items, ← Cursor.upTo_append_after (c := it.iter), readAt_append fun a ha hak => ?_,
          hrest, readAt_cons (hrest ▸ hordered), if_neg fun hv => hk.ne hv.1,
          Cursor.after_of_current he]
        exact absurd (upTo_userKey_le hl h.items he ha) (not_le.mpr (hak ▸ hk))
      hidden := fun k hk hle => absurd hle.2 (not_le.mpr hk)
      below := fun a _ _ hnot => ⟨rfl, not_lt.mp hnot⟩
      above := fun _ a ha _ => OrderedEntries.userKey_le (hrest ▸ hordered) (hrest ▸ ha) }
    have hnext : it.next = { it with savedKey := e.userKey }.findNextUserEntry true := by
      simp only [next, hdir, he]
    rw [hnext]
    exact findNextUserEntry_spec hl hflag hahead

lemma prev_spec (hl : OrderedEntries l) (h : Over l s it) (hx : it.current = some x) :
    Over l s it.prev ∧
      Greatest Prod.fst (visibleList l s) (fun y => y.1 < x.1) it.prev.current := by
  have hvalid := valid_of_current hx
  have hplaced := h.placed hvalid
  cases hdir : it.direction with
  | reserve =>
    obtain rfl : (it.savedKey, it.savedValue) = x := by
      simpa [current, key, value, hvalid, hdir] using hx
    rw [prev, hdir]
    exact findPrevUserEntry_spec hl (behind_saved it h.items h.snapshot hdir hplaced)
  | forward =>
    obtain ⟨e, he, rfl⟩ := h.current_forward hdir hx
    have hafter : ∀ a ∈ it.iter.prev.after, e.userKey ≤ a.userKey := by
      rw [(Cursor.upTo_of_current he).2]
      exact fun a => OrderedEntries.userKey_le
        ((Cursor.upTo_of_current he).2 ▸ ordered_after hl h.items)
    obtain ⟨hitems, hupTo, hge⟩ := scanBackward_spec hl (c := it.iter.prev) h.items hafter
    let it' : DBIterator K := { it with
      savedKey := e.userKey, iter := scanBackward e.userKey it.iter.prev, direction := .reserve }
    have hplaced' : it'.Placed := by
      simp only [Placed, it']
      exact ⟨hupTo, fun a ha _ => hge a ha⟩
    have hbehind : Behind l s (fun k => k < e.userKey) it' .deletion :=
      behind_saved it' hitems h.snapshot rfl hplaced'
    have hprev : it.prev = if it'.iter.valid then it'.findPrevUserEntry else
        { it' with
          direction := .forward, valid := false, savedKey := default, savedValue := [] } := by
      simp only [prev, hdir, he]
      rfl
    rw [hprev]
    split_ifs with hfound
    · exact findPrevUserEntry_spec hl hbehind
    · refine ⟨⟨hitems, h.snapshot, by simp⟩, hbehind.notFound ?_⟩
      rw [Cursor.upTo, if_neg hfound]

end Search

end DBIterator

section Refinement
variable {l : List (Entry K)} {s : ℕ} {it : DBIterator K}

lemma DBIterator.Over.valid_eq (h : DBIterator.Over l s it) : it.valid = it.current.isSome := by
  cases hvalid : it.valid with
  | false => simp [DBIterator.current, hvalid]
  | true =>
    have hplaced := h.placed hvalid
    cases hdir : it.direction with
    | reserve => simp [DBIterator.current, DBIterator.key, DBIterator.value, hvalid, hdir]
    | forward =>
      simp only [DBIterator.Placed, hdir] at hplaced
      obtain ⟨e, he⟩ := isSome_iff_exists.mp (Cursor.current_isSome.trans hplaced)
      simp [DBIterator.current, DBIterator.key, DBIterator.value, hvalid, hdir, he]

variable [Inhabited K]

/-- The iterator implements the cursor over the visible keys. -/
lemma implements_visibleList (hl : OrderedEntries l) (hflag : ∀ e ∈ l, e.flag ≠ .valueForSeek) :
    Implements (I := DBIterator K) Prod.fst Prod.fst (visibleList l s) DBIterator.call
      DBIterator.current (DBIterator.Over l s) (DBIterator.Over l s) where
  weaken _ h := h
  seekToFirst it h := ⟨_, rfl, it.seekToFirst_spec hl hflag h⟩
  seekToLast it h := ⟨_, rfl, it.seekToLast_spec hl h⟩
  seek it target h := ⟨_, rfl, it.seek_spec hl hflag h target⟩
  next it x h hx :=
    ⟨_, by rw [DBIterator.call, if_pos (DBIterator.valid_of_current hx)],
      it.next_spec hl hflag h hx⟩
  prev it x h hx :=
    ⟨_, by rw [DBIterator.call, if_pos (DBIterator.valid_of_current hx)], it.prev_spec hl h hx⟩
  refused it h hnone := by
    have hvalid : it.valid = false := by rw [h.valid_eq, hnone, isSome_none]
    simp [DBIterator.call, hvalid]

/-- After any calls that respect `Valid()` the iterator shows the same as a cursor over the visible
keys, in ascending order with their values. -/
theorem dbIterator_refines_cursor (entries : List (Entry K)) (hordered : OrderedEntries entries)
    (hflag : ∀ e ∈ entries, e.flag ≠ .valueForSeek) (lastSequenceNumber : ℕ)
    (calls : List (Call K)) :
    (RunInvariant.run DBIterator.call (.new entries lastSequenceNumber) calls).map (fun it =>
      (it.valid, it.current)) =
      (RunInvariant.run (cursorCall Prod.fst) (.new (visibleList entries lastSequenceNumber))
        calls).map fun c => (c.valid, c.current) := by
  have hstart : DBIterator.Over entries lastSequenceNumber (.new entries lastSequenceNumber) :=
    ⟨rfl, rfl, by simp [DBIterator.new]⟩
  have hagree := (implements_visibleList hordered hflag).run_agree (fun _ _ h => h)
    (visibleList_ascending hordered lastSequenceNumber) hstart
    (c := .new (visibleList entries lastSequenceNumber)) rfl
    (by simp [DBIterator.new, DBIterator.current, Cursor.new, Cursor.current]) calls
  rcases hagree with ⟨hit, hc⟩ | ⟨it, c, hit, hc, hover, hcurrent⟩
  · rw [hit, hc]
    rfl
  · rw [hit, hc, map_some, map_some, hover.valid_eq, hcurrent, Cursor.current_isSome]

end Refinement

/-- A deleted key, a key with a newer version than the snapshot, and a change of direction at both
ends. -/
theorem dbIterator_turnsBack :
    let entries : List (Entry ℕ) :=
  [⟨makeKey 1 9 .value, [9]⟩, ⟨makeKey 1 2 .value, [1]⟩, ⟨makeKey 2 4 .deletion, []⟩,
      ⟨makeKey 2 3 .value, [2]⟩, ⟨makeKey 3 1 .value, [3]⟩]
    OrderedEntries entries ∧ (∀ e ∈ entries, e.flag ≠ .valueForSeek) ∧ visibleList entries 5 =
      [(1, [1]), (3, [3])] ∧
      (RunInvariant.run DBIterator.call (.new entries 5) [.seek 2, .prev, .next, .prev]).map
        (fun it => (it.valid, it.current)) = some (true, some (1, [1])) := by
  intro entries
  have hordered : OrderedEntries entries := by decide
  have hflag : ∀ e ∈ entries, e.flag ≠ .valueForSeek := by decide
  have hvisible : visibleList entries 5 = [(1, [1]), (3, [3])] := by decide +kernel
  refine ⟨hordered, hflag, hvisible, ?_⟩
  rw [dbIterator_refines_cursor entries hordered hflag 5, hvisible]
  decide +kernel

end Mai.DbIterator
