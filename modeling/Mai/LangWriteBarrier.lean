import Mai.LangObjectGraph
import Mai.RunInvariant

/-! The write barrier (`lang/machine.h`, `lang/machine.cc`, `lang/value.cc`) and whether the
remember set records exactly the slots of old objects that hold new ones. -/
namespace Mai.LangWriteBarrier
open LangRememberSet LangHeap LangScavenger LangScavengerSteps LangScavengerRun LangObjectGraph
  RunInvariant List Option

variable {D : Type*} {hash : Slot → ℕ}

def newAddress (h : Heap D) (old : Bool) : Address :=
  if old then .old h.oldFree else .semi h.original h.originalFree

def allocate (h : Heap D) (old : Bool) (header : D) (fields : List (Option Address)) : Heap D :=
  { h with
    objects := Function.update h.objects (newAddress h old) (some ⟨header, fields, none⟩)
    oldFree := if old then h.oldFree + 1 else h.oldFree
    originalFree := if old then h.originalFree else h.originalFree + 1 }

def storeAll (h : Heap D) (slot : Slot) : List (Option Address) → Heap D
  | [] => h
  | p :: ps => storeAll (h.store slot p) ⟨slot.host, slot.index + 1⟩ ps

/-- `Machine::UpdateRememberRecords`. The loop looks at the same slot each time. -/
def updateRememberRecords (h : Heap D) (slot : Slot) (r : RememberSet Slot hash) :
    ℕ → RememberSet Slot hash
  | 0 => r
  | n + 1 =>
    let r :=
      if Heap.inOldArea slot.host then
        match h.load slot with
        | some none => r.delete slot
        | some (some a) => if h.inNewArea a then r.put slot else r
        | none => r
      else r
    updateRememberRecords h slot r n

def writeBarrier (h : Heap D) (slot : Slot) (r : RememberSet Slot hash) (n : ℕ) :
    RememberSet Slot hash :=
  if h.inNewArea slot.host then r else updateRememberRecords h slot r n

structure State (D : Type*) (hash : Slot → ℕ) where
  heap : Heap D
  records : RememberSet Slot hash

inductive Op (D : Type*)
  | new (old : Bool) (header : D) (length : ℕ)
  | store (slot : Slot) (values : List (Option Address))
  | newArrayCopied (origin : Address) (increment : ℕ) (old : Bool)
  | collect (roots : List (Option Address)) (promoteLevel : ℕ)

def Exists (h : Heap D) (p : Option Address) : Prop := ∀ a ∈ p, (h.objects a).isSome = true

instance (h : Heap D) (p : Option Address) : Decidable (Exists h p) :=
  match p with
  | none => isTrue fun _ ha => by simp at ha
  | some a => decidable_of_iff ((h.objects a).isSome = true) ⟨fun hs _ hb => mem_some.mp hb ▸ hs,
      fun hs => hs a rfl⟩

/-- The mutator stores into fields that there are and only pointers to objects that there are. A
minor collection ends with an empty remember set. -/
def step (s : State D hash) : Op D → Option (State D hash)
  | .new old header length =>
    some { s with heap := allocate s.heap old header (List.replicate length none) }
  | .store slot values =>
    if (∀ k < values.length, (s.heap.load ⟨slot.host, slot.index + k⟩).isSome = true) ∧
      ∀ p ∈ values, Exists s.heap p then
      some ⟨storeAll s.heap slot values,
        writeBarrier (storeAll s.heap slot values) slot s.records values.length⟩
    else none
  | .newArrayCopied origin increment old =>
    (s.heap.objects origin).map fun o =>
      let h := allocate s.heap old o.header (o.fields ++ List.replicate increment none)
      ⟨h, updateRememberRecords h ⟨newAddress s.heap old, 0⟩ s.records o.fields.length⟩
  | .collect roots promoteLevel =>
    if ∀ p ∈ roots, Exists s.heap p then
      (LangScavenger.run s.heap roots s.records.recorded promoteLevel).map fun (h, _) =>
        ⟨h, RememberSet.empty s.records.bucketsShift⟩
    else none

def start (raw : Address → ℕ) (bucketsShift : ℕ) : State D hash :=
  ⟨⟨fun _ => none, false, 0, 0, 0, raw⟩, RememberSet.empty bucketsShift⟩

def HoldsNew (h : Heap D) (slot : Slot) : Prop :=
  ∃ a, h.load slot = some (some a) ∧ h.inNewArea a = true

def Exact (s : State D hash) : Prop :=
  ∀ slot, s.records.latest slot = some .record ↔ Heap.inOldArea slot.host = true ∧
    HoldsNew s.heap slot

/-- The steps that keep the remember set exact. Only the first slot of a range is looked at, and
only null removes a record; a collection forgets all records. -/
def Orderly (s : State D hash) : Op D → Prop
  | .new _ _ _ => True
  | .store slot values => Heap.inOldArea slot.host = true →
      (∀ a, values[0]? = some (some a) → s.heap.inNewArea a = false → ¬ HoldsNew s.heap slot) ∧
      ∀ k p, values[k + 1]? = some p →
        ((∃ a ∈ p, s.heap.inNewArea a = true) ↔ HoldsNew s.heap ⟨slot.host, slot.index + (k + 1)⟩)
  | .newArrayCopied origin _ old => old = true → ∀ k, ¬ HoldsNew s.heap ⟨origin, k + 1⟩
  | .collect roots promoteLevel =>
    (∀ slot a, Heap.inOldArea slot.host = true → s.heap.load slot = some (some a) →
      s.heap.inNewArea a = true →
      Promotes s.heap roots s.records.recorded promoteLevel a) ∧
    ∀ a o b, Live s.heap roots s.records.recorded a →
      Promotes s.heap roots s.records.recorded promoteLevel a →
      s.heap.objects a = some o → some b ∈ o.fields → s.heap.inNewArea b = true →
      Promotes s.heap roots s.records.recorded promoteLevel b

section Records
variable {h : Heap D} {slot a : Slot} {r : RememberSet Slot hash}

lemma latest_updateRememberRecords_ne (ha : a ≠ slot) (n : ℕ) :
    (updateRememberRecords h slot r n).latest a = r.latest a := by
  induction n generalizing r with
  | zero => rfl
  | succ n ih =>
    rw [updateRememberRecords, ih]
    split_ifs
    · split
      · rw [RememberSet.latest_delete, if_neg ha]
      · split_ifs
        · rw [RememberSet.latest_put, if_neg ha]
        · rfl
      · rfl
    · rfl

lemma latest_updateRememberRecords_self (hold : Heap.inOldArea slot.host = true) (n : ℕ) :
    (updateRememberRecords h slot r (n + 1)).latest slot =
      match h.load slot with
      | some none => some .deletion
      | some (some a) => if h.inNewArea a then some .record else r.latest slot
      | none => r.latest slot := by
  induction n generalizing r with
  | zero =>
    rw [updateRememberRecords, updateRememberRecords, if_pos hold]
    split
    · rw [RememberSet.latest_delete, if_pos rfl]
    · split_ifs
      · rw [RememberSet.latest_put, if_pos rfl]
      · rfl
    · rfl
  | succ n ih =>
    rw [updateRememberRecords, ih, if_pos hold]
    split
    · rfl
    · split_ifs with hnew
      · rfl
      · simp [hnew]
    · rfl

lemma latest_updateRememberRecords_iff {p : Option Address} (hold : Heap.inOldArea slot.host = true)
    (hload : h.load slot = some p)
    (hkept : ∀ b, p = some b → h.inNewArea b = false → r.latest slot ≠ some .record) (n : ℕ) :
    (updateRememberRecords h slot r (n + 1)).latest slot = some .record ↔ HoldsNew h slot := by
  rw [latest_updateRememberRecords_self hold, hload]
  cases p with
  | none => simp [HoldsNew, hload]
  | some b =>
    cases hnew : h.inNewArea b with
    | true => exact iff_of_true (by simp [hnew]) ⟨b, hload, hnew⟩
    | false =>
      simp only [hnew]
      refine iff_of_false (hkept b rfl hnew) ?_
      rintro ⟨c, hc, hnc⟩
      obtain rfl : b = c := by simpa [hload] using hc
      rw [hnew] at hnc
      cases hnc

lemma latest_updateRememberRecords_young (hyoung : Heap.inOldArea slot.host = false) (n : ℕ) :
    updateRememberRecords h slot r n = r := by
  induction n with
  | zero => rfl
  | succ n ih => simp [updateRememberRecords, hyoung, ih]

end Records

section Stores
variable {h : Heap D} {slot other : Slot} {p : Option Address} {values : List (Option Address)}

lemma load_storeAll_out (hout : ∀ k < values.length, other ≠ ⟨slot.host, slot.index + k⟩) :
    (storeAll h slot values).load other = h.load other := by
  induction values generalizing h slot with
  | nil => rfl
  | cons q qs ih =>
    rw [storeAll, ih fun k hk => ?_, load_store_ne]
    · exact hout 0 (by simp)
    · have := hout (k + 1) (by simpa using hk)
      rwa [← Nat.add_assoc, Nat.add_right_comm] at this

lemma load_storeAll_in
    (hin : ∀ k < values.length, (h.load ⟨slot.host, slot.index + k⟩).isSome = true) {k : ℕ}
    (hk : values[k]? = some p) :
    (storeAll h slot values).load ⟨slot.host, slot.index + k⟩ = some p := by
  induction values generalizing h slot k with
  | nil => simp at hk
  | cons q qs ih =>
    cases k with
    | zero =>
      obtain rfl : q = p := by simpa using hk
      rw [storeAll, load_storeAll_out fun j _ => by simp; omega]
      exact load_store_self (by simpa using hin 0 (by simp))
    | succ k =>
      have hstep : (⟨slot.host, slot.index + (k + 1)⟩ : Slot) =
          ⟨slot.host, slot.index + 1 + k⟩ := by
        rw [Nat.add_assoc, Nat.add_comm k]
      rw [storeAll, hstep]
      refine ih (fun j hj => ?_) (by simpa using hk)
      rw [load_store_ne fun heq => by
        have := congrArg Slot.index heq
        simp at this
        omega]
      have := hin (j + 1) (by simpa using hj)
      rwa [← Nat.add_assoc, Nat.add_right_comm] at this

lemma exists_store {q : Option Address} (hq : Exists h q) : Exists (h.store slot p) q := fun a ha =>
  isSome_iff_ne_none.mpr (onObject_ne_none.mpr (isSome_iff_ne_none.mp (hq a ha)))

lemma Wf.store (hwf : Wf h) (hp : Exists h p) (slot : Slot) : Wf (h.store slot p) := by
  have hobject : ∀ a o, (h.store slot p).objects a = some o →
      ∃ o', h.objects a = some o' ∧ o.forward = o'.forward ∧ ∀ q ∈ o.fields, q ∈ o'.fields ∨
      q = p := fun a o ho => by
    by_cases ha : a = slot.host
    · rw [ha, Heap.store, onObject_self] at ho
      obtain ⟨o', ho', rfl⟩ := map_eq_some_iff.mp ho
      exact ⟨o', ha ▸ ho', rfl, fun q hq => mem_or_eq_of_mem_set hq⟩
    · rw [Heap.store, onObject_ne _ _ ha] at ho
      exact ⟨o, ho, rfl, fun q hq => Or.inl hq⟩
  refine ⟨fun a o ho => ?_, fun i => ?_, hwf.surviveFree, fun i o ho => ?_, fun n o ho => ?_,
    fun a o b ho hb => ?_⟩
  · obtain ⟨o', ho', hforward, -⟩ := hobject a o ho
    rw [hforward, hwf.unforwarded a o' ho']
  · by_contra hne
    exact onObject_ne_none.mp hne (hwf.survivors i)
  · obtain ⟨o', ho', -⟩ := hobject _ o ho
    exact hwf.originals i o' ho'
  · obtain ⟨o', ho', -⟩ := hobject _ o ho
    exact hwf.olds n o' ho'
  · obtain ⟨o', ho', -, hfields⟩ := hobject a o ho
    refine exists_store (fun c hc => ?_) b rfl
    obtain rfl : b = c := by simpa using hc
    rcases hfields _ hb with hb | rfl
    · exact hwf.closed a o' b ho' hb
    · exact hp b rfl

lemma wf_storeAll (hwf : Wf h) (hvalues : ∀ q ∈ values, Exists h q) :
    Wf (storeAll h slot values) := by
  induction values generalizing h slot with
  | nil => exact hwf
  | cons q qs ih =>
    exact ih (Wf.store hwf (hvalues q (by simp)) slot) fun q' hq' =>
      exists_store (hvalues q' (by simp [hq']))

lemma original_storeAll : (storeAll h slot values).original = h.original := by
  induction values generalizing h slot with
  | nil => rfl
  | cons q qs ih => exact ih

lemma inNewArea_congr {g : Heap D} (heq : g.original = h.original) (a : Address) :
    g.inNewArea a = h.inNewArea a := by
  cases a <;> simp [Heap.inNewArea, heq]

lemma holdsNew_congr {g : Heap D} (heq : g.original = h.original)
    (hload : g.load slot = h.load slot) :
    HoldsNew g slot ↔ HoldsNew h slot := by
  simp only [HoldsNew, hload, inNewArea_congr heq]

end Stores

section Allocation
variable {h : Heap D} {old : Bool} {header : D} {fields : List (Option Address)} {slot : Slot}

lemma Wf.objects_newAddress (hwf : Wf h) (old : Bool) : h.objects (newAddress h old) = none := by
  by_contra hne
  obtain ⟨o, ho⟩ := ne_none_iff_exists'.mp hne
  cases old with
  | true => exact absurd (hwf.olds _ o ho) (lt_irrefl _)
  | false => exact absurd (hwf.originals _ o ho) (lt_irrefl _)

lemma objects_allocate_ne {a : Address} (ha : a ≠ newAddress h old) :
    (allocate h old header fields).objects a = h.objects a := by
  simp [allocate, ha]

lemma objects_allocate_self :
    (allocate h old header fields).objects (newAddress h old) = some ⟨header, fields, none⟩ := by
  simp [allocate]

lemma load_allocate_ne (hslot : slot.host ≠ newAddress h old) :
    (allocate h old header fields).load slot = h.load slot := by
  rw [Heap.load, objects_allocate_ne hslot, Heap.load]

lemma load_allocate_self (k : ℕ) :
    (allocate h old header fields).load ⟨newAddress h old, k⟩ = fields[k]? := by
  simp [Heap.load, objects_allocate_self]

lemma wf_allocate (hwf : Wf h) (hfields : ∀ p ∈ fields, Exists h p) :
    Wf (allocate h old header fields) := by
  have hobject : ∀ a o, (allocate h old header fields).objects a = some o →
      (a = newAddress h old ∧ o = ⟨header, fields, none⟩) ∨ h.objects a = some o := fun a o ho => by
    by_cases ha : a = newAddress h old
    · subst ha
      rw [objects_allocate_self] at ho
      exact Or.inl ⟨rfl, (Option.some.inj ho).symm⟩
    · exact Or.inr (by rwa [objects_allocate_ne ha] at ho)
  have hsome : ∀ a, (h.objects a).isSome = true →
      ((allocate h old header fields).objects a).isSome = true := fun a ha => by
    by_cases heq : a = newAddress h old
    · rw [heq, objects_allocate_self]
      rfl
    · rwa [objects_allocate_ne heq]
  refine ⟨fun a o ho => ?_, fun i => ?_, hwf.surviveFree, fun i o ho => ?_, fun n o ho => ?_,
    fun a o b ho hb => ?_⟩
  · rcases hobject a o ho with ⟨-, rfl⟩ | ho
    · rfl
    · exact hwf.unforwarded a o ho
  · refine (objects_allocate_ne ?_).trans (hwf.survivors i)
    cases old <;> simp [newAddress, allocate]
  · rcases hobject _ o ho with ⟨heq, -⟩ | ho
    · cases old <;> simp [newAddress, allocate] at heq ⊢
      omega
    · have := hwf.originals i o ho
      cases old <;> simp [allocate] <;> omega
  · rcases hobject _ o ho with ⟨heq, -⟩ | ho
    · cases old <;> simp [newAddress, allocate] at heq ⊢
      omega
    · have := hwf.olds n o ho
      cases old <;> simp [allocate] <;> omega
  · rcases hobject a o ho with ⟨-, rfl⟩ | ho
    · exact hsome b (hfields _ hb b rfl)
    · exact hsome b (hwf.closed a o b ho hb)

end Allocation

section Collection
variable {s : State D hash} {roots : List (Option Address)} {promoteLevel : ℕ} {u t : Scavenger D}

lemma ready_of_exact (hwf : Wf s.heap) (hexact : Exact s) (hroots : ∀ p ∈ roots, Exists s.heap p) :
    Ready s.heap roots s.records where
  wf := hwf
  roots a ha := hroots _ ha a rfl
  slots slot hslot := by
    obtain ⟨hold, a, ha, -⟩ := (hexact slot).mp (s.records.mem_recorded.mp hslot)
    exact ⟨hold, by rw [ha]; rfl⟩
  recorded slot a hold ha hnew := (hexact slot).mpr ⟨hold, a, ha, hnew⟩

lemma complete_of_orderly (hexact : Exact s) (horderly : Orderly s (.collect roots promoteLevel)) :
    Complete s.heap roots s.records.recorded promoteLevel := by
  refine ⟨fun slot hslot => ((hexact slot).mp (s.records.mem_recorded.mp hslot)).2,
    fun a ha hstays _ => ?_⟩
  induction ha with
  | start hmem hnew => exact .start hmem hnew
  | @field a b o ha _ ho hmem hnew ih =>
    have hstays' : ¬ Promotes s.heap roots s.records.recorded promoteLevel a := fun hp =>
      hstays (horderly.2 a o b ha hp ho hmem hnew)
    exact .field (ih hstays' ⟨o, b, ho, hmem, hnew⟩) hstays' ho hmem hnew

lemma objects_after {h : Heap D} {slots : List Slot}
    (hcomplete : Complete h roots slots promoteLevel)
    (hout : Outcome h roots slots promoteLevel u t) {d : Address} {c : Object D}
    (hc : t.heap.flip.objects d = some c) :
    ∃ a o, h.objects a = some o ∧ c.forward = none ∧ c.fields = o.fields.map (adjust t) ∧
      (∀ x, some x ∈ o.fields → h.inNewArea x = true → copyOf t x ≠ none) ∧
      (copyOf t a = some d ∧ Fresh h t d ∨ ∃ n < h.oldFree, a = .old n ∧ d = .old n) := by
  have hnew : h.inNewArea d = false := by
    by_contra hne
    have hin : t.heap.inNewArea d = true := by
      rw [inNewArea_congr hout.late.original]
      simpa using hne
    simp [Heap.flip, hin] at hc
  rw [objects_flip hout hnew] at hc
  rcases hout.late.bounded d (by simp [hc]) with hd | hfresh | ⟨n, hn, rfl⟩
  · simp [hnew] at hd
  · obtain ⟨a, ha⟩ := hout.late.taken d hfresh
    have hclear : PointsNew h a → ¬ Grey h t u.heap.surviveFree none d := fun hpoints hgrey => by
      obtain ⟨hp, hearly⟩ := (hout.grey_iff ha).mp hgrey
      exact hearly (hcomplete.early a (hout.late.members a d ha).1 hp hpoints)
    obtain ⟨o, c', ho, hc', -, hfields, hcopied⟩ := hout.copy hclear ha
    obtain ⟨-, c'', -, hc'', -, hforward, -⟩ := hout.late.copies a d ha
    rw [objects_flip hout hnew, hc] at hc'
    obtain rfl := Option.some.inj hc'
    obtain rfl := Option.some.inj (hc.symm.trans hc'')
    exact ⟨a, o, ho, hforward, hfields, hcopied, Or.inl ⟨ha, hfresh⟩⟩
  · have holds := hout.late.olds n hn
    rw [hc] at holds
    obtain ⟨o, ho, heq⟩ := map_eq_some_iff.mp holds.symm
    obtain ⟨c', hc', -, hfields⟩ := hout.old_object hn ho
    rw [objects_flip hout hnew, hc] at hc'
    obtain rfl := Option.some.inj hc'
    refine ⟨.old n, o, ho, (congrArg Prod.snd heq).symm, hfields, fun x hx hxnew => ?_,
      Or.inr ⟨n, hn, rfl, rfl⟩⟩
    obtain ⟨k, hk⟩ := getElem?_of_mem hx
    exact hout.remaining.copied n k x (by simp) (by simp [Heap.load, ho, hk]) hxnew

lemma wf_after {h : Heap D} {slots : List Slot} (hwf : Wf h)
    (hcomplete : Complete h roots slots promoteLevel)
    (hout : Outcome h roots slots promoteLevel u t) : Wf t.heap.flip := by
  have horiginal : t.heap.flip.original = !h.original := by simp [Heap.flip, hout.late.original]
  refine ⟨fun a c hc => ?_, fun i => ?_, rfl, fun i c hc => ?_, fun n c hc => ?_,
    fun d c b hc hb => ?_⟩
  · obtain ⟨-, -, -, hforward, -⟩ := objects_after hcomplete hout hc
    exact hforward
  · have hin : t.heap.inNewArea (.semi (!t.heap.flip.original) i) = true := by
      simp [Heap.inNewArea, Heap.flip]
    exact if_pos hin
  · obtain ⟨a, -, -, -, -, -, ⟨-, hfresh⟩ | ⟨n, -, -, heq⟩⟩ := objects_after hcomplete hout hc
    · rw [horiginal] at hfresh
      cases hfresh with
      | survive _ hk => exact hk
    · cases heq
  · obtain ⟨a, -, -, -, -, -, ⟨-, hfresh⟩ | ⟨m, hm, -, heq⟩⟩ := objects_after hcomplete hout hc
    · cases hfresh with
      | old _ _ hlt => exact hlt
    · cases heq
      exact hm.trans_le hout.late.oldFree
  · obtain ⟨a, o, ho, -, hfields, hcopied, -⟩ := objects_after hcomplete hout hc
    rw [hfields] at hb
    obtain ⟨p, hp, hpb⟩ := List.mem_map.mp hb
    obtain ⟨x, rfl, rfl⟩ := map_eq_some_iff.mp hpb
    by_cases hx : h.inNewArea x = true
    · obtain ⟨e, he⟩ := ne_none_iff_exists'.mp (hcopied x hp hx)
      obtain ⟨-, c', -, hc', -⟩ := hout.late.copies x e he
      rw [he, getD_some, objects_flip hout (hout.late.fresh x e he).2.not_new, hc']
      rfl
    · obtain ⟨n, hn, rfl⟩ := hwf.old_of_some (hwf.closed a o x ho hp) (by simpa using hx)
      obtain ⟨o', ho'⟩ := isSome_iff_exists.mp (hwf.closed a o _ ho hp)
      obtain ⟨c', hc', -⟩ := hout.old_object hn ho'
      rw [copyOf_of_not_new hout.late rfl, getD_none, hc']
      rfl

lemma not_holdsNew_after (hwf : Wf s.heap) (hexact : Exact s)
    (horderly : Orderly s (.collect roots promoteLevel))
    (hout : Outcome s.heap roots s.records.recorded promoteLevel u t) {slot : Slot}
    (hold : Heap.inOldArea slot.host = true) :
    ¬ HoldsNew t.heap.flip slot := by
  rintro ⟨b, hb, hnew⟩
  have hcomplete := complete_of_orderly hexact horderly
  have hyoung : Heap.inOldArea b = false := by
    cases b with
    | semi => rfl
    | old n => simp [Heap.inNewArea] at hnew
  obtain ⟨c, hc, hk⟩ := bind_eq_some_iff.mp hb
  obtain ⟨a, o, ho, -, hfields, hcopied, horigin⟩ := objects_after hcomplete hout hc
  rw [hfields, getElem?_map] at hk
  obtain ⟨p, hp, hpb⟩ := map_eq_some_iff.mp hk
  obtain ⟨x, rfl, rfl⟩ := map_eq_some_iff.mp hpb
  have hmem := mem_of_getElem? hp
  by_cases hx : s.heap.inNewArea x = true
  · have hpromotes : Promotes s.heap roots s.records.recorded promoteLevel x := by
      rcases horigin with ⟨ha, -⟩ | ⟨n, -, rfl, -⟩
      · obtain ⟨hlive, hiff⟩ := hout.late.members a _ ha
        exact horderly.2 a o x hlive (hiff.mp hold) ho hmem hx
      · exact horderly.1 ⟨.old n, slot.index⟩ x rfl (by simp [Heap.load, ho, hp]) hx
    obtain ⟨e, he⟩ := ne_none_iff_exists'.mp (hcopied x hmem hx)
    rw [he, getD_some, (hout.late.members x e he).2.mpr hpromotes] at hyoung
    cases hyoung
  · obtain ⟨n, -, rfl⟩ := hwf.old_of_some (hwf.closed a o x ho hmem) (by simpa using hx)
    rw [copyOf_of_not_new hout.late rfl] at hyoung
    cases hyoung

end Collection

section Runs
variable {s t : State D hash} {op : Op D}

structure Inv (s : State D hash) : Prop where
  wf : Wf s.heap
  exact : Exact s

lemma inv_start (raw : Address → ℕ) (bucketsShift : ℕ) :
    Inv (start raw bucketsShift : State D hash) := by
  refine ⟨⟨by simp [start], by simp [start], rfl, by simp [start], by simp [start],
    by simp [start]⟩, fun slot => ?_⟩
  simp [start, RememberSet.latest_empty, HoldsNew, Heap.load]

lemma inv_new {old : Bool} {header : D} {length : ℕ} (hinv : Inv s) :
    Inv { s with heap := allocate s.heap old header (List.replicate length none) } := by
  refine ⟨wf_allocate hinv.wf fun p hp a ha => ?_, fun slot => ?_⟩
  · simp [(mem_replicate.mp hp).2] at ha
  · refine (hinv.exact slot).trans (and_congr_right fun _ => ?_)
    by_cases hslot : slot.host = newAddress s.heap old
    · obtain ⟨host, k⟩ := slot
      subst hslot
      refine iff_of_false ?_ ?_
      · rintro ⟨a, ha, -⟩
        simp [Heap.load, Wf.objects_newAddress hinv.wf] at ha
      · rintro ⟨a, ha, -⟩
        rw [load_allocate_self] at ha
        simpa using (mem_of_getElem? ha)
    · exact (holdsNew_congr (by rfl) (load_allocate_ne hslot)).symm

lemma inv_storeAll {slot : Slot} {values : List (Option Address)} (hinv : Inv s)
    (horderly : Orderly s (.store slot values))
    (hin : ∀ k < values.length, (s.heap.load ⟨slot.host, slot.index + k⟩).isSome = true)
    (hvalues : ∀ p ∈ values, Exists s.heap p) :
    Inv ⟨storeAll s.heap slot values,
      writeBarrier (storeAll s.heap slot values) slot s.records values.length⟩ := by
  refine ⟨wf_storeAll hinv.wf hvalues, fun other => ?_⟩
  have hnew : ∀ a, (storeAll s.heap slot values).inNewArea a = s.heap.inNewArea a :=
    inNewArea_congr original_storeAll
  by_cases hold : Heap.inOldArea slot.host = true
  · obtain ⟨hfirst, hrest⟩ := horderly hold
    have hbarrier : (s.heap.inNewArea slot.host) = false := by
      cases hhost : slot.host <;> simp_all [Heap.inOldArea, Heap.inNewArea]
    simp only [writeBarrier, hnew, hbarrier, Bool.false_eq_true, if_false]
    by_cases hother : ∃ k < values.length, other = ⟨slot.host, slot.index + k⟩
    · obtain ⟨k, hk, rfl⟩ := hother
      obtain ⟨p, hp⟩ : ∃ p, values[k]? = some p := ⟨_, getElem?_eq_getElem hk⟩
      have hload := load_storeAll_in hin hp
      cases k with
      | zero =>
        obtain ⟨n, hn⟩ : ∃ n, values.length = n + 1 := ⟨values.length - 1, by omega⟩
        have hslot : (⟨slot.host, slot.index + 0⟩ : Slot) = slot := rfl
        rw [hslot] at hload ⊢
        rw [hn, latest_updateRememberRecords_iff hold hload, and_iff_right hold]
        rintro a rfl ha hrecord
        rw [hnew] at ha
        exact hfirst a hp ha ((hinv.exact slot).mp hrecord).2
      | succ k =>
        have hne : (⟨slot.host, slot.index + (k + 1)⟩ : Slot) ≠ slot := fun heq => by
          have := congrArg Slot.index heq
          simp at this
        rw [latest_updateRememberRecords_ne hne, hinv.exact, ← hrest k p hp]
        refine and_congr_right fun _ => ?_
        constructor
        · rintro ⟨a, ha, hna⟩
          exact ⟨a, by rw [hload, mem_def.mp ha], by rwa [hnew]⟩
        · rintro ⟨a, ha, hna⟩
          rw [hload] at ha
          exact ⟨a, Option.some.inj ha, by rwa [← hnew]⟩
    · have hout : ∀ k < values.length, other ≠ ⟨slot.host, slot.index + k⟩ :=
        fun k hk heq => hother ⟨k, hk, heq⟩
      rw [holdsNew_congr original_storeAll (load_storeAll_out hout), ← hinv.exact]
      cases values with
      | nil => rfl
      | cons q qs =>
        have hne : other ≠ slot := hout 0 (by simp)
        rw [latest_updateRememberRecords_ne hne]
  · have hrecords : writeBarrier (storeAll s.heap slot values) slot s.records values.length =
        s.records := by
      rw [writeBarrier, latest_updateRememberRecords_young (by simpa using hold), ite_self]
    simp only [hrecords]
    refine (hinv.exact other).trans
      (and_congr_right fun hother => (holdsNew_congr original_storeAll ?_).symm)
    refine load_storeAll_out fun k _ heq => hold ?_
    rw [heq] at hother
    exact hother

lemma inv_newArrayCopied {origin : Address} {increment : ℕ} {old : Bool} {o : Object D}
    (hinv : Inv s) (horderly : Orderly s (.newArrayCopied origin increment old))
    (ho : s.heap.objects origin = some o) :
    Inv ⟨allocate s.heap old o.header (o.fields ++ List.replicate increment none),
      updateRememberRecords
        (allocate s.heap old o.header (o.fields ++ List.replicate increment none))
        ⟨newAddress s.heap old, 0⟩ s.records o.fields.length⟩ := by
  have hfields : ∀ k a, (o.fields ++ List.replicate increment none)[k]? = some (some a) →
      o.fields[k]? = some (some a) :=
    fun k a hk => by
      by_cases hlt : k < o.fields.length
      · rwa [getElem?_append_left hlt] at hk
      · rw [getElem?_append_right (by omega)] at hk
        simpa using mem_of_getElem? hk
  refine ⟨wf_allocate hinv.wf fun p hp a ha => ?_, fun other => ?_⟩
  · obtain rfl := mem_def.mp ha
    obtain ⟨k, hk⟩ := getElem?_of_mem hp
    exact hinv.wf.closed origin o a ho (mem_of_getElem? (hfields k a hk))
  · have hother : other.host ≠ newAddress s.heap old →
        (s.records.latest other = some .record ↔ Heap.inOldArea other.host = true ∧
        HoldsNew (allocate s.heap old o.header (o.fields ++ List.replicate increment none))
        other) := fun hhost => by
      rw [hinv.exact, holdsNew_congr (by rfl) (load_allocate_ne hhost)]
    have hunrecorded : ∀ k, s.records.latest ⟨newAddress s.heap old, k⟩ ≠ some .record :=
      fun k hrecord => by
      obtain ⟨-, a, ha, -⟩ := (hinv.exact _).mp hrecord
      simp [Heap.load, Wf.objects_newAddress hinv.wf] at ha
    cases old with
    | false =>
      rw [latest_updateRememberRecords_young rfl]
      by_cases hhost : other.host = newAddress s.heap false
      · obtain ⟨host, k⟩ := other
        subst hhost
        exact iff_of_false (hunrecorded k) fun hright => by cases hright.1
      · exact hother hhost
    | true =>
      by_cases hhost : other.host = newAddress s.heap true
      · obtain ⟨host, k⟩ := other
        subst hhost
        set h' := allocate s.heap true o.header (o.fields ++ List.replicate increment none) with hh'
        have hholds : ∀ k, HoldsNew h' ⟨newAddress s.heap true, k⟩ →
            HoldsNew s.heap ⟨origin, k⟩ := by
          rintro k ⟨a, ha, hna⟩
          rw [hh', load_allocate_self] at ha
          exact ⟨a, by simp [Heap.load, ho, hfields k a ha], hna⟩
        cases k with
        | zero =>
          cases hlength : o.fields.length with
          | zero =>
            refine iff_of_false (hunrecorded 0) ?_
            rintro ⟨-, hnew⟩
            obtain ⟨a, ha, -⟩ := hholds 0 hnew
            simp [Heap.load, ho, length_eq_zero_iff.mp hlength] at ha
          | succ n =>
            obtain ⟨p, hp⟩ : ∃ p, o.fields[0]? = some p := ⟨_, getElem?_eq_getElem (by omega)⟩
            have hload : h'.load ⟨newAddress s.heap true, 0⟩ = some p := by
              rw [hh', load_allocate_self, getElem?_append_left (by omega), hp]
            rw [latest_updateRememberRecords_iff rfl hload fun _ _ _ => hunrecorded 0]
            exact (and_iff_right rfl).symm
        | succ k =>
          rw [latest_updateRememberRecords_ne (by simp)]
          exact iff_of_false (hunrecorded _) fun hright => horderly rfl k (hholds _ hright.2)
      · have hne : other ≠ ⟨newAddress s.heap true, 0⟩ := fun heq => hhost (by rw [heq])
        rw [latest_updateRememberRecords_ne hne]
        exact hother hhost

theorem inv_step (horderly : Orderly s op) (hinv : Inv s) (ht : step s op = some t) : Inv t := by
  cases op with
  | new old header length =>
    obtain rfl := Option.some.inj ht
    exact inv_new hinv
  | store slot values =>
    rw [step] at ht
    split_ifs at ht with hguard
    obtain rfl := Option.some.inj ht
    exact inv_storeAll hinv horderly hguard.1 hguard.2
  | newArrayCopied origin increment old =>
    obtain ⟨o, ho, rfl⟩ := map_eq_some_iff.mp ht
    exact inv_newArrayCopied hinv horderly ho
  | collect roots promoteLevel =>
    rw [step] at ht
    split_ifs at ht with hroots
    obtain ⟨⟨h', roots'⟩, hrun, rfl⟩ := map_eq_some_iff.mp ht
    obtain ⟨u, v, hout, rfl, -⟩ := run_outcome (ready_of_exact hinv.wf hinv.exact hroots) hrun
    refine ⟨wf_after hinv.wf (complete_of_orderly hinv.exact horderly) hout, fun slot => ?_⟩
    refine iff_of_false ?_ fun hslot => not_holdsNew_after hinv.wf hinv.exact horderly hout hslot.1
      hslot.2
    simp [RememberSet.latest_empty]

/-- In orderly runs the records are those of the slots of old objects that point to new ones. -/
theorem exact_always (raw : Address → ℕ) (bucketsShift : ℕ) (ops : List (Op D))
    (horderly : EachStep step Orderly (start raw bucketsShift : State D hash) ops) :
    Always step Exact (start raw bucketsShift : State D hash) ops := fun bs t hb ht =>
  (always_of_eachStep (fun _ _ _ ho hi hs => inv_step ho hi hs) (inv_start raw bucketsShift)
    horderly bs t hb ht).exact

def promotion : List (Op Unit) :=
  [.new true () 1, .new false () 0, .store ⟨.old 0, 0⟩ [some (.semi false 0)], .collect [] 0]

lemma orderly_collect_nil (hinv : Inv s) (promoteLevel : ℕ)
    (hfields : ∀ a o, s.heap.inNewArea a = true → s.heap.objects a = some o → o.fields = []) :
    Orderly s (.collect [] promoteLevel) := by
  refine ⟨fun slot a hold ha hnew => Or.inr ⟨by simp, slot, ?_, ha⟩, fun a o b ha _ ho hb _ => ?_⟩
  · exact s.records.mem_recorded.mpr ((hinv.exact slot).mpr ⟨hold, a, ha, hnew⟩)
  · have hnew : s.heap.inNewArea a = true := by cases ha <;> assumption
    simp [hfields a o hnew ho] at hb

lemma promotion_orderly :
    EachStep step Orderly (start (fun _ => 0) 0 : State Unit fun _ => 0) promotion := by
  refine eachStep_cons.mpr fun s₁ h₁ =>
    ⟨trivial, eachStep_cons.mpr fun s₂ h₂ => ⟨trivial, eachStep_cons.mpr fun s₃ h₃ => ?_⟩⟩
  have hfirst := inv_step (by trivial) (inv_start (fun _ => 0) 0) h₁
  have hinv := inv_step (by trivial) hfirst h₂
  have hstore : Orderly s₂ (.store ⟨.old 0, 0⟩ [some (.semi false 0)]) := fun _ => by
    refine ⟨fun a ha hnew => ?_, fun k p hp => by simp at hp⟩
    obtain rfl : Address.semi false 0 = a := by simpa using ha
    obtain rfl := Option.some.inj h₁
    obtain rfl := Option.some.inj h₂
    cases hnew
  refine ⟨hstore, eachStep_cons.mpr fun s₄ h₄ =>
    ⟨orderly_collect_nil (inv_step hstore hinv h₃) 0 fun a o hnew ho => ?_, eachStep_nil⟩⟩
  obtain rfl := Option.some.inj h₁
  obtain rfl := Option.some.inj h₂
  obtain rfl := Option.some.inj h₃
  cases a with
  | old n => cases hnew
  | semi area k =>
    by_cases hk : Address.semi area k = .semi false 0
    · rw [hk] at ho
      exact (congrArg Object.fields (Option.some.inj ho)).symm
    · simp [storeAll, Heap.store, Heap.onObject, allocate, newAddress, start, hk] at ho

theorem exact_promotion :
    (run step (start (fun _ => 0) 0 : State Unit fun _ => 0) promotion).isSome = true ∧
    Always step Exact (start (fun _ => 0) 0 : State Unit fun _ => 0) promotion :=
  ⟨by decide +kernel, exact_always _ _ _ promotion_orderly⟩

/-- A store of two fields at once records the first only. -/
theorem range_not_recorded : ¬ Always step Exact (start (fun _ => 0) 0 : State Unit fun _ => 0)
    [.new true () 2, .new false () 0,
      .store ⟨.old 0, 0⟩ [some (.semi false 0), some (.semi false 0)]] := by
  intro h
  have hexact := h _ _ (prefix_refl _) (by rfl) ⟨.old 0, 1⟩
  have hrecord := hexact.mpr ⟨rfl, .semi false 0, by rfl, by rfl⟩
  exact absurd hrecord (by decide +kernel)

end Runs

end Mai.LangWriteBarrier
