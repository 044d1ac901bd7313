import Mai.TxnWriteBatch
import Mai.CoreDeltaAmend

/-! The iterator of a transaction: the entries of the database amended by the writes of the batch
(`WriteBatchWithIndex::NewIteratorWithBase`, `IteratorImpl`), driven forward. -/
namespace Mai.TxnIterator
open ByteCodec CoreKeys ListCursor OrderedIterator CoreDeltaAmend TxnWriteBatch

@[ext] structure Key (c : Comparator) where
  bytes : Bytes
  deriving DecidableEq, Repr

section Order
variable {c : Comparator}

lemma compare_self_eq (k : Bytes) : c.compare k k = .eq := (c.compare_eq k k).mpr rfl

lemma compare_lt_of_ne_gt {a b : Bytes} (h : c.compare a b ≠ .gt) (hne : a ≠ b) :
    c.compare a b = .lt := by
  cases hab : c.compare a b with
  | lt => rfl
  | eq => exact absurd ((c.compare_eq a b).mp hab) hne
  | gt => exact absurd hab h

instance : LinearOrder (Key c) where
  le a b := c.compare a.bytes b.bytes ≠ .gt
  lt a b := c.compare a.bytes b.bytes = .lt
  le_refl a := by rw [compare_self_eq]; decide
  le_trans a b d hab hbd := by
    by_cases hne : a = b
    · exact hne ▸ hbd
    · by_cases hne' : b = d
      · exact hne' ▸ hab
      · rw [c.compare_trans _ _ _ (compare_lt_of_ne_gt hab (mt Key.ext hne))
          (compare_lt_of_ne_gt hbd (mt Key.ext hne'))]
        decide
  le_antisymm a b hab hba := by
    by_contra hne
    exact hba ((c.compare_gt _ _).mpr (compare_lt_of_ne_gt hab (mt Key.ext hne)))
  le_total a b := by
    by_cases hab : c.compare a.bytes b.bytes = .gt
    · refine Or.inr ?_
      rw [(c.compare_gt _ _).mp hab]
      decide
    · exact Or.inl hab
  lt_iff_le_not_ge a b := by
    rw [ne_eq, ne_eq, not_not, c.compare_gt b.bytes a.bytes]
    exact ⟨fun h => ⟨by rw [h]; decide, h⟩, fun h => h.2⟩
  toDecidableLE a b := inferInstanceAs (Decidable (c.compare a.bytes b.bytes ≠ .gt))
  toDecidableEq := inferInstance
  toDecidableLT a b := inferInstanceAs (Decidable (c.compare a.bytes b.bytes = .lt))

end Order

section Iterator
variable (c : Comparator)

/-- What the amended iterator reads of `saved_key_` and `saved_value_`. A caller who is shown an
entry without a value has called `ExtractUserKey` on a key without a tag. -/
def seen (saved : Bytes × Bytes) : Delta (Key c) (Option Bytes) where
  userKey := ⟨(parseTaggedKey saved.1).userKey⟩
  flag := if (parseTaggedKey saved.1).flag = 1 then .deletion else .value
  value := (extractUserKey saved.1).map fun _ => saved.2

/-- `NewIterator`: from `SeekToFirst` and `Next` on every node is read by `Update`. -/
def newIterator (dead : Bytes → Bytes) (b : WriteBatchWithIndex) (cfid : UInt32) :
    Except Error (Cursor (Delta (Key c) (Option Bytes))) :=
  (b.newIterator cfid).map fun table => .new (table.map fun e => seen c (b.update dead e))

/-- The fields of the lookup entry that `IteratorImpl::Seek` does not set. -/
structure Memory where
  offset : ℕ
  size : ℕ
  deriving DecidableEq, Repr

/-- The lookup entry of `IteratorImpl::Seek`. With an offset the comparator takes bytes of the
buffer, as many as the address in the union; with a greater size it takes bytes behind the target.
Neither is a result. -/
def seekEntry (memory : Memory) (target : Bytes) : Option WriteBatchEntry :=
  if memory.offset = 0 ∧ memory.size ≤ target.length then some ⟨0, memory.size, .lookupKey target⟩
  else none

/-- `IteratorImpl::Seek` on a fresh iterator. The node that is found has not been read: `key()` and
`value()` are the empty strings from the constructor until `Next`. -/
def seekDelta (comparator : UInt32 → Comparator) (b : WriteBatchWithIndex) (cfid : UInt32)
    (delta : Cursor (Delta (Key (comparator cfid)) (Option Bytes))) (memory : Memory)
    (target : Bytes) :
    Option (Cursor (Delta (Key (comparator cfid)) (Option Bytes))) :=
  (seekEntry memory target).map fun entry =>
    let i := b.findGreaterOrEqual comparator cfid entry ((b.tables cfid).getD [])
    ⟨delta.items.set i (seen (comparator cfid) ([], [])), i⟩

end Iterator

inductive Start
  | first
  | seek (target : Bytes)
  deriving DecidableEq, Repr

def Start.covers (c : Comparator) : Start → Key c → Prop
  | .first, _ => True
  | .seek target, k => ⟨target⟩ ≤ k

section Amended
variable (comparator : UInt32 → Comparator) (dead : Bytes → Bytes)

abbrev Amended (c : Comparator) := DeltaAmendIterator (Key c) (Option Bytes)

def shown {c : Comparator} (x : Key c × Bytes) : Key c × Option Bytes := (x.1, some x.2)

def newIteratorWithBase (b : WriteBatchWithIndex) (cfid : UInt32)
    (base : Cursor (Key (comparator cfid) × Bytes)) :
    Except Error (Amended (comparator cfid)) :=
  (newIterator (comparator cfid) dead b cfid).map fun delta => .new (base.map shown) delta

def start (b : WriteBatchWithIndex) (cfid : UInt32) (memory : Memory)
    (it : Amended (comparator cfid)) :
    Start → Option (Amended (comparator cfid))
  | .first => some it.seekToFirst
  | .seek target =>
    (seekDelta comparator b cfid it.delta memory target).map fun delta =>
      DeltaAmendIterator.updateCurrent { it with
        direction := .forward
        base := it.base.seek fun x => (⟨target⟩ : Key (comparator cfid)) ≤ x.1
        delta := delta }

def Overlaid {c : Comparator} (writes : List Write) (cfid : UInt32) (base : List (Key c × Bytes))
    (x : Key c × Bytes) : Prop :=
  match lastWrite writes cfid x.1.bytes with
  | none => x ∈ base
  | some w => w.flag = .value ∧ x.2 = w.value

def ListsOverlay (s : Session) (cfid : UInt32) (base : Cursor (Key (comparator cfid) × Bytes))
    (at_ : Start) (memory : Memory) : Prop :=
  ∃ it it' l, newIteratorWithBase comparator dead s.batch cfid base = .ok it ∧
    start comparator s.batch cfid memory it at_ = some it' ∧
    Lists DeltaAmendIterator.call DeltaAmendIterator.entry it' (l.map shown) ∧
    Ascending Prod.fst l ∧
    ∀ x, x ∈ l ↔ at_.covers (comparator cfid) x.1 ∧ Overlaid s.writes cfid base.items x

/-- A write of the family that `RawGet` does not find leaves the base as it is: a deletion of a key
that is not there or a put of the value that is there. -/
def LostIdle (s : Session) (cfid : UInt32) (base : List (Key (comparator cfid) × Bytes)) : Prop :=
  ∀ w, lastWrite s.writes cfid w.key = some w →
    (s.batch.rawGet comparator dead cfid w.key).toOption = none →
    w.flag = .deletion ∧ (∀ v, (⟨w.key⟩, v) ∉ base) ∨
      w.flag = .value ∧ (⟨w.key⟩, w.value) ∈ base

end Amended

section Batch
variable {comparator : UInt32 → Comparator} {dead : Bytes → Bytes} {s : Session} {cfid : UInt32}
  {view : UInt32 → List Write} {w : Write}

def Write.delta (c : Comparator) (w : Write) : Delta (Key c) (Option Bytes) :=
  ⟨⟨w.key⟩, w.flag, some (w.stored.getD [])⟩

lemma seen_shown (c : Comparator) (hflag : w.flag ≠ .valueForSeek) :
    seen c w.shown = Write.delta c w := by
  have hread : (if (flagByte w.flag).toNat = 1 then .deletion else .value) = w.flag := by
    cases hw : w.flag with
    | value => rfl
    | deletion => rfl
    | valueForSeek => exact absurd hw hflag
  rw [seen, Write.shown, parseTaggedKey_keyBytes le_rfl, extractUserKey_keyBytes]
  exact congrArg (fun flag => { Write.delta c w with flag := flag }) hread

/-- The entries of the family can still be read. -/
def FamilyIntact (dead : Bytes → Bytes) (s : Session) (cfid : UInt32) : Prop :=
  ∀ w, lastWrite s.writes cfid w.key = some w → Intact dead w

lemma FamilyIntact.indexed (h : FamilyIntact dead s cfid) (hview : Indexed comparator s view) :
    ∀ w ∈ view cfid, Intact dead w := fun w hw => h w ((hview cfid).2 w hw)

structure Tracked (s : Session) : Prop where
  flags : ∀ w ∈ s.writes, w.flag ≠ .valueForSeek
  tables : ∀ cfid, s.batch.tables cfid = none ↔ ∀ w ∈ s.writes, w.cfid ≠ cfid

lemma tracked_step {t : Session} (h : Tracked s) (hstep : addOrUpdate comparator s w = some t) :
    Tracked t := by
  unfold addOrUpdate at hstep
  split_ifs at hstep with hflag
  obtain rfl := Option.some.inj hstep
  refine ⟨fun v hv => ?_, fun cfid => ?_⟩
  · rcases List.mem_append.mp hv with hv | hv
    · exact h.flags v hv
    · rwa [List.mem_singleton.mp hv]
  · have happend : (s.batch.append w.cfid w.flag w.key w.value).tables = s.batch.tables := by
      cases hf : w.flag <;> rfl
    simp only [WriteBatchWithIndex.addOrUpdate, happend, List.forall_mem_append,
      List.forall_mem_singleton]
    by_cases heq : cfid = w.cfid
    · simp [heq]
    · rw [Function.update_of_ne heq, h.tables cfid]
      exact ⟨fun hno => ⟨hno, Ne.symm heq⟩, fun hno => hno.1⟩

lemma reached {writes : List Write}
    (h : RunInvariant.run (addOrUpdate comparator) Session.start writes = some s) :
    Tracked s ∧ ∃ view, Indexed comparator s view := by
  refine RunInvariant.run_invariant (I := fun s => Tracked s ∧ ∃ view, Indexed comparator s view)
    (G := fun _ => True)
    (fun s w t _ ⟨htracked, view, hindexed⟩ hstep =>
      ⟨tracked_step htracked hstep, _, hindexed.step hstep⟩)
    ⟨⟨by simp [Session.start], fun cfid => ?_⟩, _, indexed_start⟩ (fun _ _ => trivial) h
  simp [Session.start, WriteBatchWithIndex.empty]

lemma newIterator_eq (h : Tracked s) (hview : Indexed comparator s view) (hw : w ∈ s.writes)
    (hintact : FamilyIntact dead s w.cfid) : newIterator (comparator w.cfid) dead s.batch w.cfid =
      .ok (.new ((view w.cfid).map (Write.delta (comparator w.cfid)))) := by
  obtain ⟨⟨htable, -⟩ | ⟨table, htable, hstored⟩, -⟩ := (hview w.cfid).1
  · exact absurd rfl ((h.tables w.cfid).mp htable w hw)
  · simp only [newIterator, WriteBatchWithIndex.newIterator, htable, Except.map]
    congr 2
    have hflags : ∀ v ∈ view w.cfid, v.flag ≠ .valueForSeek := fun v hv =>
      h.flags v (lastWrite_some ((hview w.cfid).2 v hv)).1
    have hread := hintact.indexed hview
    clear htable
    generalize view w.cfid = ws at hstored hflags hread ⊢
    induction hstored with
    | nil => rfl
    | @cons e v _ _ hev _ ih =>
      rw [List.map_cons, List.map_cons, hev.update_eq (hread v (by simp)),
        seen_shown _ (hflags v (by simp)), ih (fun u hu => hflags u (by simp [hu])) fun u hu =>
        hread u (by simp [hu])]

lemma newIterator_error (h : Tracked s) (hno : ∀ w ∈ s.writes, w.cfid ≠ cfid) :
    newIterator (comparator cfid) dead s.batch cfid =
      .error (.notFound "No any write in this column family.") := by
  simp only [newIterator, WriteBatchWithIndex.newIterator, (h.tables cfid).mpr hno, Except.map]

lemma rawGet_eq_none (hview : Indexed comparator s view) (hintact : FamilyIntact dead s cfid)
    {w : Write} (hw : lastWrite s.writes cfid w.key = some w) :
    (s.batch.rawGet comparator dead cfid w.key).toOption = none ↔ w ∉ view cfid := by
  rw [(hview cfid).1.rawGet_intact (hintact.indexed hview), Option.map_eq_none_iff,
    List.find?_eq_none]
  constructor
  · intro h hmem
    exact h w hmem (by simp)
  · intro h v hv hkey
    have hlast := (hview cfid).2 v hv
    rw [of_decide_eq_true hkey, hw] at hlast
    exact h (Option.some.inj hlast ▸ hv)

end Batch

section Overlay
variable {comparator : UInt32 → Comparator} {dead : Bytes → Bytes} {s : Session} {cfid : UInt32}
  {view : UInt32 → List Write}
  {base : List (Key (comparator cfid) × Bytes)}

def Listed (view : List Write) {c : Comparator} (base : List (Key c × Bytes)) (x : Key c × Bytes) :
    Prop :=
  (x ∈ base ∧ ∀ w ∈ view, w.key ≠ x.1.bytes) ∨ ∃ w ∈ view, w.flag = .value ∧ x = (⟨w.key⟩, w.value)

lemma mem_overlay_shown {c : Comparator} {ws : List Write}
    (hflags : ∀ w ∈ ws, w.flag ≠ .valueForSeek) {base : List (Key c × Bytes)}
    {y : Key c × Option Bytes} :
    y ∈ overlay (base.map shown) (ws.map (Write.delta c)) ↔ ∃ x, Listed ws base x ∧
      y = shown x := by
  rw [mem_overlay]
  constructor
  · rintro (⟨hy, hno⟩ | ⟨d, hd, hflag, rfl⟩)
    · obtain ⟨x, hx, rfl⟩ := List.mem_map.mp hy
      exact ⟨x, Or.inl ⟨hx, fun w hw heq => hno _ (List.mem_map_of_mem hw) (Key.ext heq)⟩, rfl⟩
    · obtain ⟨w, hw, rfl⟩ := List.mem_map.mp hd
      have hvalue : w.flag = .value := by
        cases hwf : w.flag with
        | value => rfl
        | deletion => exact absurd hwf hflag
        | valueForSeek => exact absurd hwf (hflags w hw)
      exact ⟨_, Or.inr ⟨w, hw, hvalue, rfl⟩, by simp [shown, Write.delta, Write.stored, hvalue]⟩
  · rintro ⟨x, ⟨hx, hno⟩ | ⟨w, hw, hflag, rfl⟩, rfl⟩
    · refine Or.inl ⟨List.mem_map_of_mem hx, fun d hd heq => ?_⟩
      obtain ⟨w, hw, rfl⟩ := List.mem_map.mp hd
      exact hno w hw (congrArg Key.bytes heq)
    · refine Or.inr ⟨_, List.mem_map_of_mem hw, ?_, ?_⟩
      · simp [Write.delta, hflag]
      · simp [shown, Write.delta, Write.stored, hflag]

lemma listed_unwritten {c : Comparator} {ws : List Write} {base : List (Key c × Bytes)}
    {k v : Bytes} (hkey : ∀ w ∈ ws, w.key ≠ k) : Listed ws base (⟨k⟩, v) ↔ (⟨k⟩, v) ∈ base := by
  refine ⟨?_, fun hmem => Or.inl ⟨hmem, hkey⟩⟩
  rintro (⟨hmem, -⟩ | ⟨w, hw, -, heq⟩)
  · exact hmem
  · exact absurd (congrArg (fun x => x.1.bytes) heq).symm (hkey w hw)

lemma listed_written {c : Comparator} {ws : List Write} {base : List (Key c × Bytes)} {w : Write}
    {v : Bytes} (hw : w ∈ ws) (hkey : ∀ u ∈ ws, u.key = w.key → u = w) :
    Listed ws base (⟨w.key⟩, v) ↔ w.flag = .value ∧ v = w.value := by
  constructor
  · rintro (⟨-, hno⟩ | ⟨u, hu, hflag, heq⟩)
    · exact absurd rfl (hno w hw)
    · obtain ⟨hk, rfl⟩ := Prod.mk.injEq .. ▸ heq
      obtain rfl := hkey u hu (congrArg Key.bytes hk).symm
      exact ⟨hflag, rfl⟩
  · rintro ⟨hflag, rfl⟩
    exact Or.inr ⟨w, hw, hflag, rfl⟩

lemma listed_iff (htracked : Tracked s) (hview : Indexed comparator s view)
    (hintact : FamilyIntact dead s cfid) (hbase : Ascending Prod.fst base) :
    (∀ x, Listed (view cfid) base x ↔ Overlaid s.writes cfid base x) ↔
      LostIdle comparator dead s cfid base := by
  have hkey : ∀ w u, lastWrite s.writes cfid w.key = some w → u ∈ view cfid → u.key = w.key →
      u = w := by
    intro w u hw hu heq
    have hlast := (hview cfid).2 u hu
    rw [heq, hw] at hlast
    exact (Option.some.inj hlast).symm
  constructor
  · intro h w hw hget
    have hlost : ∀ u ∈ view cfid, u.key ≠ w.key := fun u hu heq =>
      (rawGet_eq_none hview hintact hw).mp hget (hkey w u hw hu heq ▸ hu)
    have hx : ∀ v, (⟨w.key⟩, v) ∈ base ↔ w.flag = .value ∧ v = w.value := fun v => by
      rw [← listed_unwritten hlost, h]
      simp [Overlaid, hw]
    cases hflag : w.flag with
    | value => exact Or.inr ⟨rfl, (hx w.value).mpr ⟨hflag, rfl⟩⟩
    | deletion => exact Or.inl ⟨rfl, fun v hv => by simpa [hflag] using ((hx v).mp hv).1⟩
    | valueForSeek => exact absurd hflag (htracked.flags w (lastWrite_some hw).1)
  · rintro h ⟨⟨k⟩, v⟩
    cases hlast : lastWrite s.writes cfid k with
    | none =>
      simp only [Overlaid, hlast]
      refine listed_unwritten fun u hu heq => ?_
      rw [← heq, (hview cfid).2 u hu] at hlast
      cases hlast
    | some w =>
      obtain ⟨-, -, rfl⟩ := lastWrite_some hlast
      simp only [Overlaid, hlast]
      by_cases hmem : w ∈ view cfid
      · exact listed_written hmem fun u hu => hkey w u hlast hu
      · rw [listed_unwritten fun u hu heq => hmem (hkey w u hlast hu heq ▸ hu)]
        rcases h w hlast ((rawGet_eq_none hview hintact hlast).mpr hmem) with ⟨hflag, hno⟩ | ⟨hflag,
          hin⟩
        · exact iff_of_false (hno v) (by simp [hflag])
        · refine ⟨fun hv => ⟨hflag, ?_⟩, fun hv => hv.2 ▸ hin⟩
          exact congrArg Prod.snd (hbase.inj hv hin rfl)

end Overlay

section Listing
variable {comparator : UInt32 → Comparator} {dead : Bytes → Bytes} {s : Session} {cfid : UInt32}
  {view : UInt32 → List Write} {w : Write}

lemma shown_injective {c : Comparator} : Function.Injective (shown (c := c)) := fun x y h => by
  simpa [shown, Prod.ext_iff] using h

lemma ascending_shown {c : Comparator} {l : List (Key c × Bytes)} :
    Ascending Prod.fst (l.map shown) ↔ Ascending Prod.fst l := by
  simp [Ascending, List.pairwise_map, shown]

lemma lists_seekToFirst {K V : Type*} [LinearOrder K] {base : Cursor (K × V)}
    {delta : Cursor (Delta K V)} (hbase : Ascending Prod.fst base.items)
    (hdelta : Ascending Delta.userKey delta.items) :
    Lists DeltaAmendIterator.call DeltaAmendIterator.entry
      (DeltaAmendIterator.new base delta).seekToFirst
      (overlay base.items delta.items) := by
  have himplements := deltaAmend_implements hbase hdelta
  have hasc := ascending_overlay hbase hdelta
  obtain ⟨j, d, hj, hd, hR, hitems, hcur⟩ := himplements.agree_seek (fun _ _ h => h) hasc
    (i := .new base delta) (c := .new (overlay base.items delta.items)) (a := .seekToFirst)
      ⟨rfl, rfl⟩ rfl rfl
  obtain rfl : _ = j := Option.some.inj hj
  obtain rfl : _ = d := Option.some.inj hd
  exact himplements.lists (fun _ _ h => h) hasc hR hitems hcur

lemma lists_listed (htracked : Tracked s) (hview : Indexed comparator s view) (hw : w ∈ s.writes)
    (hintact : FamilyIntact dead s w.cfid) {base : Cursor (Key (comparator w.cfid) × Bytes)}
    (hbase : Ascending Prod.fst base.items) :
    ∃ it l, newIteratorWithBase comparator dead s.batch w.cfid base = .ok it ∧
      Lists DeltaAmendIterator.call DeltaAmendIterator.entry it.seekToFirst (l.map shown) ∧
        Ascending Prod.fst l ∧
      ∀ x, x ∈ l ↔ Listed (view w.cfid) base.items x := by
  have hflags : ∀ v ∈ view w.cfid, v.flag ≠ .valueForSeek := fun v hv =>
    htracked.flags v (lastWrite_some ((hview w.cfid).2 v hv)).1
  let delta : Cursor (Delta (Key (comparator w.cfid)) (Option Bytes)) :=
    .new ((view w.cfid).map (Write.delta _))
  have hB : Ascending Prod.fst (base.map shown).items := ascending_shown.mpr hbase
  have hD : Ascending Delta.userKey delta.items := List.pairwise_map.mpr (hview w.cfid).1.sorted
  let l := (overlay (base.map shown).items delta.items).map fun y => (y.1, y.2.getD [])
  have hl : l.map shown = overlay (base.map shown).items delta.items := by
    rw [List.map_map]
    refine (List.map_congr_left fun y hy => ?_).trans (List.map_id _)
    obtain ⟨x, -, rfl⟩ := (mem_overlay_shown hflags).mp hy
    rfl
  refine ⟨.new (base.map shown) delta, l, ?_, hl ▸ lists_seekToFirst hB hD, ?_, fun x => ?_⟩
  · rw [newIteratorWithBase, newIterator_eq htracked hview hw hintact]
    rfl
  · exact ascending_shown.mp (hl ▸ ascending_overlay hB hD)
  · rw [← List.mem_map_of_injective shown_injective, hl]
    refine (mem_overlay_shown hflags).trans ⟨?_, fun hx => ⟨x, hx, rfl⟩⟩
    rintro ⟨y, hy, heq⟩
    exact shown_injective heq ▸ hy

lemma updateCurrent_put {K V : Type*} [LinearOrder K] {it : DeltaAmendIterator K V} {d : Delta K V}
    (hd : it.delta.current = some d) (hflag : d.flag ≠ .deletion) :
    it.updateCurrent.entry = some (d.userKey, d.value) ∨
      ∃ b, it.base.current = some b ∧
        it.updateCurrent = { it with equalKeys := false, currentAtBase := true } := by
  fun_cases DeltaAmendIterator.updateCurrent it <;> simp_all [DeltaAmendIterator.entry]

lemma stale_shown {c : Comparator} {it : Amended c} {l : List (Key c × Option Bytes)}
    (hdir : it.direction = .forward) (hstale : it.delta.current = some (seen c ([], [])))
    (h : Lists DeltaAmendIterator.call DeltaAmendIterator.entry it.updateCurrent l) :
    ∃ x ∈ l, x.2 = none := by
  have hflag : (seen c ([], [])).flag ≠ .deletion := by simp [seen, parseTaggedKey]
  induction hrest : it.base.rest generalizing it l with
  | nil =>
    obtain hentry | ⟨b, hb, -⟩ := updateCurrent_put hstale hflag
    · exact ⟨_, h.mem_current hentry, rfl⟩
    · rw [Cursor.current_eq_head, hrest] at hb
      cases hb
  | cons b rest ih =>
    obtain hentry | ⟨b', hb, hupdate⟩ := updateCurrent_put hstale hflag
    · exact ⟨_, h.mem_current hentry, rfl⟩
    · rw [hupdate] at h
      cases h with
      | done hnone => simp [DeltaAmendIterator.entry, hb] at hnone
      | @more _ j _ l _ hnext h =>
        let it' : Amended c :=
          { it with base := it.base.next, equalKeys := false, currentAtBase := true }
        have hj : it'.updateCurrent = j := by
          simpa [DeltaAmendIterator.call, DeltaAmendIterator.entry, hb, DeltaAmendIterator.next,
            DeltaAmendIterator.turn, hdir, DeltaAmendIterator.advanceCurrent, advance,
            it'] using hnext
        rw [Cursor.rest_of_current hb, List.cons.injEq] at hrest
        obtain ⟨x, hx, hnone⟩ := @ih it' l hdir hstale (hj ▸ h) hrest.2
        exact ⟨x, List.mem_cons_of_mem _ hx, hnone⟩

lemma not_listsOverlay_seek {base : Cursor (Key (comparator cfid) × Bytes)} {memory : Memory}
    {target : Bytes} {entry : WriteBatchEntry} {table : List WriteBatchEntry}
    (hentry : seekEntry memory target = some entry) (htable : s.batch.tables cfid = some table)
    (hfound : s.batch.findGreaterOrEqual comparator cfid entry table < table.length) :
    ¬ ListsOverlay comparator dead s cfid base (.seek target) memory := by
  rintro ⟨it, it', l, hit, hstart, hlists, -⟩
  simp only [newIteratorWithBase, newIterator, WriteBatchWithIndex.newIterator, htable, Except.map,
    Except.ok.injEq] at hit
  subst hit
  simp only [start, seekDelta, hentry, htable, Option.map_some, Option.getD_some,
    Option.some.injEq] at hstart
  subst hstart
  obtain ⟨x, hx, hnone⟩ := stale_shown rfl
    (by simp [Cursor.current, DeltaAmendIterator.new, Cursor.new, hfound]) hlists
  obtain ⟨y, -, rfl⟩ := List.mem_map.mp hx
  cases hnone

end Listing

/-- Strings of fifteen bytes and less are kept in the string itself, and the stack has not been
reused. -/
def keepsShort (s : Bytes) : Bytes := if s.length ≤ 15 then s else List.replicate s.length 0

end Mai.TxnIterator
