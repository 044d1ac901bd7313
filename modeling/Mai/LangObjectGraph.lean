import Mai.LangScavengerRun
import Mai.PointerGraph

/-! Whether a minor collection preserves the object graph. -/
namespace Mai.LangObjectGraph
open LangRememberSet LangHeap LangScavenger LangScavengerSteps LangScavengerRun PointerGraph List
  Option

variable {D : Type*}

def graph (h : Heap D) : RecordGraph Address D :=
  fun a => (h.objects a).map fun o => (o.header, o.fields)

def starts (h : Heap D) (roots : List (Option Address)) (slots : List Slot) :
    List (Option Address) :=
  roots ++ slots.map fun slot => (h.load slot).join

/-- Heap, roots and remember set before a collection: recorded slots are slots of old objects, and
all old slots that hold an object of the new area are recorded. -/
structure Ready {hash : Slot → ℕ} (h : Heap D) (roots : List (Option Address))
    (r : RememberSet Slot hash) : Prop where
  wf : Wf h
  roots : ∀ a, some a ∈ roots → (h.objects a).isSome = true
  slots : ∀ slot ∈ r.recorded, Heap.inOldArea slot.host = true ∧ (h.load slot).isSome = true
  recorded : ∀ slot a, Heap.inOldArea slot.host = true → h.load slot = some (some a) →
    h.inNewArea a = true →
    r.latest slot = some .record

/-- The collection ends, what could be reached has been moved as it was, and nothing that can be
reached lies in the area that has been left. -/
def Preserves (h : Heap D) (roots : List (Option Address)) (slots : List Slot) (promoteLevel : ℕ) :
    Prop :=
  ∃ h' roots', run h roots slots promoteLevel = some (h', roots') ∧
    (∃ φ, Relocates (graph h) (graph h') (starts h roots slots) (starts h' roots' slots) φ) ∧
    ∀ a, Reaches (graph h') (starts h' roots' slots) a → h.inNewArea a = false

def Promotes (h : Heap D) (roots : List (Option Address)) (slots : List Slot) (promoteLevel : ℕ)
    (a : Address) : Prop :=
  h.raw a < promoteLevel ∨ some a ∉ roots ∧ ∃ slot ∈ slots, h.load slot = some (some a)

/-- The objects of the new area that are found from `entries` by way of objects in `through`. -/
inductive Found (h : Heap D) (entries : List (Option Address)) (through : Address → Prop) :
    Address → Prop
  | start {a : Address} (hmem : some a ∈ entries) (hnew : h.inNewArea a = true) :
      Found h entries through a
  | field {a b : Address} {o : Object D} (ha : Found h entries through a) (hthrough : through a)
      (ho : h.objects a = some o)
      (hmem : some b ∈ o.fields) (hnew : h.inNewArea b = true) : Found h entries through b

def Live (h : Heap D) (roots : List (Option Address)) (slots : List Slot) : Address → Prop :=
  Found h (starts h roots slots) fun _ => True

def Early (h : Heap D) (roots : List (Option Address)) (slots : List Slot) (promoteLevel : ℕ) :
    Address → Prop :=
  Found h (starts h roots slots) fun a => ¬ Promotes h roots slots promoteLevel a

def PointsNew (h : Heap D) (a : Address) : Prop :=
  ∃ o b, h.objects a = some o ∧ some b ∈ o.fields ∧ h.inNewArea b = true

/-- Every recorded slot holds an object of the new area, and the objects that stay in the new area
and refer to others there are found without passing a promoted object. -/
structure Complete (h : Heap D) (roots : List (Option Address)) (slots : List Slot)
    (promoteLevel : ℕ) : Prop where
  targets : ∀ slot ∈ slots, ∃ a, h.load slot = some (some a) ∧ h.inNewArea a = true
  early : ∀ a, Live h roots slots a → ¬ Promotes h roots slots promoteLevel a → PointsNew h a →
    Early h roots slots promoteLevel a

section Outcome
variable {h : Heap D} {roots : List (Option Address)} {slots : List Slot} {promoteLevel : ℕ}
  {u t : Scavenger D} {a d : Address}

lemma Found.mono {entries : List (Option Address)} {p q : Address → Prop} (hpq : ∀ a, p a → q a)
    (ha : Found h entries p a) :
    Found h entries q a := by
  induction ha with
  | start hmem hnew => exact .start hmem hnew
  | field _ hthrough ho hmem hnew ih => exact .field ih (hpq _ hthrough) ho hmem hnew

/-- The collection after the survivor area has been scanned (`u`) and after the promoted objects
(`t`). -/
structure Outcome (h : Heap D) (roots : List (Option Address)) (slots : List Slot)
    (promoteLevel : ℕ) (u t : Scavenger D) : Prop where
  early : Inv h (Early h roots slots promoteLevel) (Promotes h roots slots promoteLevel) u
    u.heap.surviveFree none
  entries : ∀ a, some a ∈ starts h roots slots → h.inNewArea a = true → copyOf u a ≠ none
  kept : Kept h u t
  late : Inv h (Live h roots slots) (Promotes h roots slots promoteLevel) t u.heap.surviveFree none
  queue : t.promoted = []
  remaining : Remaining h t []

lemma copyOf_start (hwf : Wf h) (promoteLevel : ℕ) (a : Address) :
    copyOf ({ heap := h, promoted := [], promoteLevel := promoteLevel } : Scavenger D) a =
      none := by
  cases ho : h.objects a with
  | none => simp [copyOf, ho]
  | some o => simp [copyOf, ho, hwf.unforwarded a o ho]

lemma inv_start (hwf : Wf h) (M P : Address → Prop) :
    Inv h M P ({ heap := h, promoted := [], promoteLevel := promoteLevel } : Scavenger D) 0
      none := by
  have hnone := copyOf_start hwf promoteLevel
  have hforward : ∀ a o, h.objects a = some o → ({ o with forward := none } : Object D) = o :=
    fun a o ho => by
    have := hwf.unforwarded a o ho
    cases o
    simp_all
  refine ⟨rfl, rfl, fun a _ => ?_, fun n _ => ?_, le_rfl, fun a d hd => ?_, fun d hd => ?_,
    fun a b d hd => ?_, fun a d hd => ?_, by simp, by simp, fun a d hd => ?_, Nat.zero_le _,
    fun d hd => ?_⟩
  · cases ho : h.objects a with
    | none => rfl
    | some o => simp [hforward a o ho]
  · cases ho : h.objects (.old n) with
    | none => rfl
    | some o => simp [hwf.unforwarded _ o ho]
  · simp [hnone] at hd
  · cases hd with
    | old n hn hlt => exact absurd hlt (by simpa using hn)
    | survive k hk => simp [hwf.surviveFree] at hk
  · simp [hnone] at hd
  · simp [hnone] at hd
  · simp [hnone] at hd
  · by_cases hnew : h.inNewArea d = true
    · exact Or.inl hnew
    · exact Or.inr (Or.inr (hwf.old_of_some (isSome_iff_ne_none.mpr hd) (by simpa using hnew)))

lemma adjust_start (hwf : Wf h) (promoteLevel : ℕ) :
    adjust ({ heap := h, promoted := [], promoteLevel := promoteLevel } : Scavenger D) = id := by
  funext p
  cases p <;> simp [adjust, copyOf_start hwf]

variable {hash : Slot → ℕ} {r : RememberSet Slot hash}

lemma Ready.host (hready : Ready h roots r) {slot : Slot} (hslot : slot ∈ r.recorded) :
    ∃ n < h.oldFree, slot.host = .old n := by
  obtain ⟨hold, hload⟩ := hready.slots slot hslot
  cases hhost : slot.host with
  | semi area k => simp [Heap.inOldArea, hhost] at hold
  | old n =>
    cases ho : h.objects (.old n) with
    | none => simp [Heap.load, hhost, ho] at hload
    | some o => exact ⟨n, hready.wf.olds n o ho, rfl⟩

lemma Ready.remaining_start (hready : Ready h roots r) (promoteLevel : ℕ) :
    Remaining h ({ heap := h, promoted := [], promoteLevel := promoteLevel } : Scavenger D)
      r.recorded := by
  refine ⟨fun n _ k => ?_, fun n k a hk ha hnew => ?_⟩
  · rw [adjust_start hready.wf, Option.map_id]
    split_ifs <;> rfl
  · exact absurd (r.mem_recorded.mpr (hready.recorded _ a rfl ha hnew)) hk

lemma mem_starts : some a ∈ starts h roots slots ↔ some a ∈ roots ∨ ∃ slot ∈ slots,
    h.load slot = some (some a) := by
  simp [starts, join_eq_some_iff]

lemma run_eq (h : Heap D) (roots : List (Option Address)) (slots : List Slot) (promoteLevel : ℕ) :
    run h roots slots promoteLevel =
      let s := ({ heap := h, promoted := [], promoteLevel := promoteLevel } : Scavenger
        D).visitPointers roots
      (slots.foldlM Scavenger.visitRecord s.1).map fun s' =>
        (((s'.scanSurvivors 0 h.originalFree).scanPromoted h.originalFree).heap.flip, s.2) :=
  Option.map_map ..

lemma Ready.visited (hready : Ready h roots r) (promoteLevel : ℕ) :
    let s := ({ heap := h, promoted := [], promoteLevel := promoteLevel } : Scavenger
      D).visitPointers roots
    ((r.recorded.foldlM Scavenger.visitRecord s.1).isSome = true ↔
      ∀ slot ∈ r.recorded, ∃ a, h.load slot = some (some a) ∧ h.inNewArea a = true) ∧
    ∀ v, r.recorded.foldlM Scavenger.visitRecord s.1 = some v →
      Inv h (Early h roots r.recorded promoteLevel) (Promotes h roots r.recorded promoteLevel) v 0
      none ∧ Remaining h v [] ∧
      v.promoteLevel = promoteLevel ∧ v.promoted.length + h.oldFree = v.heap.oldFree ∧
      s.2 = roots.map (adjust v) ∧
      ∀ a, some a ∈ starts h roots r.recorded → h.inNewArea a = true → copyOf v a ≠ none := by
  have hvisit : ∀ p ∈ roots,
      Visitable h (Early h roots r.recorded promoteLevel) (Promotes h roots r.recorded promoteLevel)
      ({ heap := h, promoted := [], promoteLevel := promoteLevel } : Scavenger D) p := by
    rintro p hp a rfl
    refine ⟨hready.roots a hp, fun hnew => ⟨.start (mem_starts.mpr (Or.inl hp)) hnew, fun _ => ?_⟩⟩
    simp [Promotes, hp]
  obtain ⟨hprogress, hroots, hcopied⟩ :=
    visitPointers_progress hready.wf (inv_start hready.wf _ _) hvisit
  set s := ({ heap := h, promoted := [], promoteLevel := promoteLevel } : Scavenger D).visitPointers
    roots with hs
  have hremaining : Remaining h s.1 r.recorded :=
    (hready.remaining_start promoteLevel).extend hprogress.extends_
    (fun a d hd => (hprogress.inv.fresh a d hd).1) fun n hn =>
      hprogress.frame _ (Or.inr ⟨n, hn, rfl⟩)
  obtain ⟨hiff, hall⟩ := visitRecords_spec hready.wf hprogress.inv hremaining r.recorded_nodup
    (fun slot hslot => hready.host hslot)
    fun slot hslot a ha hnew =>
      ⟨.start (mem_starts.mpr (Or.inr ⟨slot, hslot, ha⟩)) hnew, fun hnone =>
      Or.inr ⟨fun hmem => hcopied a hmem hnew hnone, slot, hslot, ha⟩⟩
  refine ⟨hiff, fun v hv => ?_⟩
  obtain ⟨hinv, hrem, hext, hlevel, hcounts⟩ := hall v hv
  have hfirst := hprogress.counts
  refine ⟨hinv, hrem, hlevel.trans hprogress.level, ?_, ?_, fun a ha hnew => ?_⟩
  · simp only [length_nil] at hfirst
    omega
  · rw [hroots]
    refine map_congr_left fun p hp =>
      (hext.adjust_eq (fun a d hd => (hinv.fresh a d hd).1) fun a ha hnew => ?_).symm
    exact hcopied a (ha ▸ hp) hnew
  · rcases mem_starts.mp ha with ha | ⟨slot, hslot, ha⟩
    · exact hext.ne_none (hcopied a ha hnew)
    · obtain ⟨n, -, hhost⟩ := hready.host hslot
      obtain ⟨host, k⟩ := slot
      subst hhost
      exact hrem.copied n k a (by simp) ha hnew

lemma Ready.scanned (hready : Ready h roots r) {M : Address → Prop}
    (hM : ∀ a, Early h roots r.recorded promoteLevel a → M a)
    (hclosed : ∀ a o b, M a → Promotes h roots r.recorded promoteLevel a → h.objects a = some o →
      some b ∈ o.fields →
      h.inNewArea b = true → M b) {v u t : Scavenger D}
    (hv : r.recorded.foldlM Scavenger.visitRecord
      (({ heap := h, promoted := [], promoteLevel := promoteLevel } : Scavenger D).visitPointers
        roots).1 = some v)
    (hu : u = v.scanSurvivors 0 h.originalFree) (ht : t = u.scanPromoted h.originalFree) :
    Inv h (Early h roots r.recorded promoteLevel) (Promotes h roots r.recorded promoteLevel) u
      u.heap.surviveFree none ∧
      Inv h M (Promotes h roots r.recorded promoteLevel) t u.heap.surviveFree none ∧
        t.promoted = [] ∧
      Kept h v u ∧ Kept h u t := by
  obtain ⟨hiff, hall⟩ := hready.visited promoteLevel
  obtain ⟨hinv, hrem, hlevel, hcounts, hroots, hcopied⟩ := hall v hv
  have htargets := hiff.mp (by rw [hv]; rfl)
  have hpromotes : ∀ b, copyOf v b = none →
      (h.raw b < v.promoteLevel ↔ Promotes h roots r.recorded promoteLevel b) := fun b hb => by
    rw [hlevel]
    refine ⟨Or.inl, fun hp => hp.resolve_right ?_⟩
    rintro ⟨-, slot, hslot, hload⟩
    obtain ⟨a, ha, hnew⟩ := htargets slot hslot
    obtain rfl : b = a := by simpa [hload] using ha
    exact hcopied b (mem_starts.mpr (Or.inr ⟨slot, hslot, hload⟩)) hnew hb
  obtain ⟨j, hearly, hkept, hcounts', hj⟩ := scanSurvivors_spec hready.wf hinv
    (fun a o b ha hp ho hmem hnew => .field ha hp ho hmem hnew) hpromotes h.originalFree
  rw [← hu] at hearly hkept hcounts' hj
  obtain rfl : j = u.heap.surviveFree := by
    have hle : u.heap.surviveFree ≤ h.originalFree :=
      Inv.le_originalFree hready.wf hearly (.semi (!h.original) ·)
      (fun k l hkl => by simpa using hkl) fun k hk => .survive k hk
    have := hearly.scanned
    omega
  obtain ⟨hlate, hkept', hqueue⟩ := scanPromoted_spec hready.wf (Inv.mono hearly hM) hclosed
    (fun b hb => by
      rw [hkept.level]
      exact hpromotes b (by_contra fun hne => hkept.extends_.ne_none hne hb)) h.originalFree
  rw [← ht] at hlate hkept' hqueue
  refine ⟨hearly, hlate, ?_, hkept, hkept'⟩
  rcases hqueue with hqueue | hlen
  · exact hqueue
  · have hle : t.heap.oldFree - h.oldFree ≤ h.originalFree :=
      Inv.le_originalFree hready.wf hlate (fun k => .old (h.oldFree + k))
      (fun k l hkl => by simpa using hkl) fun k hk => .old _ (by omega) (by omega)
    exact length_eq_zero_iff.mp (by omega)

lemma Ready.outcome (hready : Ready h roots r) {v : Scavenger D}
    (hv : r.recorded.foldlM Scavenger.visitRecord
      (({ heap := h, promoted := [], promoteLevel := promoteLevel } : Scavenger D).visitPointers
        roots).1 = some v)
    (hu : u = v.scanSurvivors 0 h.originalFree) (ht : t = u.scanPromoted h.originalFree) :
    Outcome h roots r.recorded promoteLevel u t := by
  obtain ⟨-, hrem, -, -, -, hcopied⟩ := (hready.visited promoteLevel).2 v hv
  obtain ⟨hearly, hlate, hempty, hkept, hkept'⟩ := hready.scanned (M := Live h roots r.recorded)
    (fun a ha => ha.mono fun _ _ => trivial)
      (fun a o b ha _ ho hmem hnew => .field ha trivial ho hmem hnew) hv hu ht
  have hkeptv := hkept.trans hkept'
  exact ⟨hearly, fun a ha hn => hkept.extends_.ne_none (hcopied a ha hn), hkept', hlate, hempty,
    hrem.extend hkeptv.extends_ (fun a d hd => (hlate.fresh a d hd).1) hkeptv.olds⟩

lemma run_outcome (hready : Ready h roots r) {h' : Heap D} {roots' : List (Option Address)}
    (hrun : run h roots r.recorded promoteLevel = some (h', roots')) :
    ∃ u t, Outcome h roots r.recorded promoteLevel u t ∧ h' = t.heap.flip ∧
      roots' = roots.map (adjust t) := by
  rw [run_eq] at hrun
  obtain ⟨v, hv, heq⟩ := map_eq_some_iff.mp hrun
  obtain ⟨-, -, -, -, hroots, hcopied⟩ := (hready.visited promoteLevel).2 v hv
  obtain ⟨-, -, -, hkept, hkept'⟩ := hready.scanned (M := Live h roots r.recorded)
    (fun a ha => ha.mono fun _ _ => trivial)
      (fun a o b ha _ ho hmem hnew => .field ha trivial ho hmem hnew) hv rfl rfl
  have hout := hready.outcome hv rfl rfl
  obtain ⟨rfl, rfl⟩ := Prod.mk.inj heq
  refine ⟨_, _, hout, rfl, ?_⟩
  rw [hroots]
  refine map_congr_left fun p hp => ((hkept.trans hkept').extends_.adjust_eq
    (fun a d hd => (hout.late.fresh a d hd).1) fun a ha hn => ?_).symm
  exact hcopied a (mem_starts.mpr (Or.inl (ha ▸ hp))) hn

end Outcome

section Preserves
variable {h : Heap D} {roots : List (Option Address)} {slots : List Slot} {promoteLevel : ℕ}
  {u t : Scavenger D} {a d : Address}
  {hash : Slot → ℕ} {r : RememberSet Slot hash}

lemma Inv.survivor {M P : Address → Prop} {s : Scavenger D} {i : ℕ} {e : Option Address}
    (hinv : Inv h M P s i e) (hd : copyOf s a = some d) (hp : ¬ P a) :
    ∃ k < s.heap.surviveFree, d = .semi (!h.original) k := by
  obtain ⟨-, hiff⟩ := hinv.members a d hd
  cases (hinv.fresh a d hd).2 with
  | old n hn hlt => exact absurd (hiff.mp rfl) hp
  | survive k hk => exact ⟨k, hk, rfl⟩

lemma Outcome.early_copied (hout : Outcome h roots slots promoteLevel u t)
    (ha : Early h roots slots promoteLevel a) :
    copyOf u a ≠ none := by
  induction ha with
  | start hmem hnew => exact hout.entries _ hmem hnew
  | @field a b o _ hp ho hmem hnew ih =>
    obtain ⟨d, hd⟩ := ne_none_iff_exists'.mp ih
    obtain ⟨o', c, ho', -, -, -, -, hdone⟩ := hout.early.copies a d hd
    obtain rfl : o = o' := Option.some.inj (ho.symm.trans ho')
    obtain ⟨k, hk, rfl⟩ := Inv.survivor hout.early hd hp
    refine (hdone ?_).2 b hmem hnew
    rintro ((hq | ⟨l, hl, heq⟩) | he)
    · obtain ⟨n, -, -, heq⟩ := hout.early.queue _ hq
      cases heq
    · cases heq
      omega
    · cases he

lemma Outcome.grey_iff (hout : Outcome h roots slots promoteLevel u t) (hd : copyOf t a = some d) :
    Grey h t u.heap.surviveFree none d ↔ ¬ Promotes h roots slots promoteLevel a ∧
      ¬ Early h roots slots promoteLevel a := by
  have hmembers := (hout.late.members a d hd).2
  constructor
  · rintro ((hq | ⟨k, hk, rfl⟩) | he)
    · simp [hout.queue] at hq
    · refine ⟨fun hp => by simpa [Heap.inOldArea] using hmembers.mpr hp, fun hearly => ?_⟩
      obtain ⟨d, hu⟩ := ne_none_iff_exists'.mp (hout.early_copied hearly)
      obtain rfl : d = _ := Option.some.inj ((hout.kept.extends_ a d hu).symm.trans hd)
      cases (hout.early.fresh a _ hu).2
      omega
    · cases he
  · rintro ⟨hp, hearly⟩
    obtain ⟨k, -, rfl⟩ := Inv.survivor hout.late hd hp
    refine Or.inl (Or.inr ⟨k, ?_, rfl⟩)
    by_contra hk
    obtain ⟨b, hb⟩ := hout.early.taken _ (.survive k (by omega))
    obtain rfl := hout.late.injective a b _ hd (hout.kept.extends_ b _ hb)
    exact hearly (hout.early.members a _ hb).1

lemma objects_flip (hout : Outcome h roots slots promoteLevel u t) (hd : h.inNewArea d = false) :
    t.heap.flip.objects d = t.heap.objects d := by
  have hin : t.heap.inNewArea d = h.inNewArea d := by
    cases d <;> simp [Heap.inNewArea, hout.late.original]
  simp [Heap.flip, hin, hd]

lemma load_flip (hout : Outcome h roots slots promoteLevel u t) {n : ℕ} (hn : n < h.oldFree)
    (k : ℕ) :
    t.heap.flip.load ⟨.old n, k⟩ = (h.load ⟨.old n, k⟩).map (adjust t) := by
  have hload := hout.remaining.load n hn k
  rw [if_neg (by simp)] at hload
  rw [← hload, Heap.load, objects_flip hout rfl]
  rfl

lemma starts_flip (hready : Ready h roots r) (hout : Outcome h roots r.recorded promoteLevel u t) :
    starts t.heap.flip (roots.map (adjust t)) r.recorded =
      (starts h roots r.recorded).map (adjust t) := by
  rw [starts, starts, map_append, List.map_map]
  congr 1
  refine map_congr_left fun slot hslot => ?_
  obtain ⟨n, hn, hhost⟩ := hready.host hslot
  obtain ⟨host, k⟩ := slot
  subst hhost
  rw [load_flip hout hn]
  cases hload : h.load ⟨.old n, k⟩ with
  | none => simp [hload, adjust]
  | some p => simp [hload]

lemma Outcome.copy (hout : Outcome h roots slots promoteLevel u t)
    (hclear : PointsNew h a → ¬ Grey h t u.heap.surviveFree none d) (hd : copyOf t a = some d) :
    ∃ o c, h.objects a = some o ∧ t.heap.flip.objects d = some c ∧ c.header = o.header ∧
      Adjusted h t o c.fields := by
  obtain ⟨o, c, ho, hc, hheader, -, hraw, hdone⟩ := hout.late.copies a d hd
  refine ⟨o, c, ho, by rw [objects_flip hout (hout.late.fresh a d hd).2.not_new, hc], hheader, ?_⟩
  by_cases hgrey : Grey h t u.heap.surviveFree none d
  · have hold : ∀ b, some b ∈ o.fields → h.inNewArea b = false := fun b hb => by
      by_contra hnew
      exact hclear ⟨o, b, ho, hb, by simpa using hnew⟩ hgrey
    refine ⟨?_, fun b hb hnew => by simp [hold b hb] at hnew⟩
    rw [hraw hgrey]
    refine ((map_congr_left fun p hp => ?_).trans (List.map_id _)).symm
    cases p with
    | none => rfl
    | some b => simp [adjust, copyOf_of_not_new hout.late (hold b hp)]
  · exact hdone hgrey

lemma Ready.reaches (hready : Ready h roots r)
    (ha : Reaches (graph h) (starts h roots r.recorded) a) :
    (h.objects a).isSome = true ∧ (h.inNewArea a = true → Live h roots r.recorded a) := by
  induction ha with
  | @start a hmem =>
    refine ⟨?_, fun hnew => .start hmem hnew⟩
    rcases mem_starts.mp hmem with ha | ⟨slot, -, ha⟩
    · exact hready.roots a ha
    · obtain ⟨o, ho, hmem⟩ := bind_eq_some_iff.mp ha
      exact hready.wf.closed _ o a ho (mem_of_getElem? hmem)
  | @field a b l fields _ hnode hmem ih =>
    obtain ⟨o, ho, heq⟩ := map_eq_some_iff.mp hnode
    obtain ⟨rfl, rfl⟩ := Prod.mk.inj heq
    refine ⟨hready.wf.closed a o b ho hmem, fun hnew => ?_⟩
    by_cases ha : h.inNewArea a = true
    · exact .field (ih.2 ha) trivial ho hmem hnew
    · obtain ⟨n, -, rfl⟩ := hready.wf.old_of_some ih.1 (by simpa using ha)
      obtain ⟨k, hk⟩ := getElem?_of_mem hmem
      have hload : h.load ⟨.old n, k⟩ = some (some b) := by simp [Heap.load, ho, hk]
      have hslot := r.mem_recorded.mpr (hready.recorded _ b rfl hload hnew)
      exact .start (mem_starts.mpr (Or.inr ⟨_, hslot, hload⟩)) hnew

lemma Outcome.old_object (hout : Outcome h roots slots promoteLevel u t) {n : ℕ}
    (hn : n < h.oldFree) {o : Object D} (ho : h.objects (.old n) = some o) :
    ∃ c, t.heap.flip.objects (.old n) = some c ∧ c.header = o.header ∧
      c.fields = o.fields.map (adjust t) := by
  have holds := hout.late.olds n hn
  rw [ho] at holds
  obtain ⟨c, hc, heq⟩ := map_eq_some_iff.mp holds
  have hflip : t.heap.flip.objects (.old n) = some c := by rw [objects_flip hout rfl, hc]
  refine ⟨c, hflip, congrArg Prod.fst heq, ext_getElem? fun k => ?_⟩
  have hload := load_flip hout hn k
  simpa [Heap.load, hflip, ho] using hload

def place (t : Scavenger D) (a : Address) : Address := (copyOf t a).getD a

lemma Complete.relocates (hcomplete : Complete h roots r.recorded promoteLevel)
    (hready : Ready h roots r) (hout : Outcome h roots r.recorded promoteLevel u t) :
    Relocates (graph h) (graph t.heap.flip) (starts h roots r.recorded)
      (starts t.heap.flip (roots.map (adjust t)) r.recorded) (place t) ∧
    ∀ a, Reaches (graph h) (starts h roots r.recorded) a → h.inNewArea (place t a) = false := by
  have hclear : ∀ a d, copyOf t a = some d → PointsNew h a → ¬ Grey h t u.heap.surviveFree none d :=
    fun a d hd hnew hgrey => by
    obtain ⟨hp, hearly⟩ := (hout.grey_iff hd).mp hgrey
    exact hearly (hcomplete.early a (hout.late.members a d hd).1 hp hnew)
  have hlive : ∀ a, Live h roots r.recorded a → copyOf t a ≠ none := fun a ha => by
    induction ha with
    | start hmem hnew => exact hout.kept.extends_.ne_none (hout.entries _ hmem hnew)
    | @field a b o _ _ ho hmem hnew ih =>
      obtain ⟨d, hd⟩ := ne_none_iff_exists'.mp ih
      obtain ⟨o', c, ho', -, -, hadjusted⟩ := hout.copy (hclear a d hd) hd
      obtain rfl : o = o' := Option.some.inj (ho.symm.trans ho')
      exact hadjusted.2 b hmem hnew
  have hcases : ∀ a, Reaches (graph h) (starts h roots r.recorded) a →
      (∃ d, copyOf t a = some d ∧ Fresh h t d) ∨ copyOf t a = none ∧ ∃ n < h.oldFree, a = .old n :=
      fun a ha => by
    obtain ⟨hsome, hnew⟩ := hready.reaches ha
    by_cases hn : h.inNewArea a = true
    · obtain ⟨d, hd⟩ := ne_none_iff_exists'.mp (hlive a (hnew hn))
      exact Or.inl ⟨d, hd, (hout.late.fresh a d hd).2⟩
    · exact Or.inr ⟨copyOf_of_not_new hout.late (by simpa using hn),
        hready.wf.old_of_some hsome (by simpa using hn)⟩
  refine ⟨⟨starts_flip hready hout, fun a ha b hb hab => ?_, fun a ha => ?_⟩, fun a ha => ?_⟩
  · rcases hcases a ha with ⟨d, hd, hf⟩ | ⟨hd, n, hn, rfl⟩ <;> rcases hcases b
      hb with ⟨d', hd', hf'⟩ | ⟨hd', m, hm, rfl⟩
    · obtain rfl : d = d' := by simpa [place, hd, hd'] using hab
      exact hout.late.injective a b d hd hd'
    · obtain rfl : d = .old m := by simpa [place, hd, hd'] using hab
      cases hf
      omega
    · obtain rfl : .old n = d' := by simpa [place, hd, hd'] using hab
      cases hf'
      omega
    · simpa [place, hd, hd'] using hab
  · rcases hcases a ha with ⟨d, hd, -⟩ | ⟨hd, n, hn, rfl⟩
    · obtain ⟨o, c, ho, hc, hheader, hadjusted⟩ := hout.copy (hclear a d hd) hd
      refine ⟨o.header, o.fields, by simp [graph, ho], ?_⟩
      have hplace : place t a = d := by simp [place, hd]
      rw [hplace, graph, hc, map_some, hheader, hadjusted.1]
      rfl
    · obtain ⟨o, ho⟩ := isSome_iff_exists.mp (hready.reaches ha).1
      obtain ⟨c, hc, hheader, hfields⟩ := hout.old_object hn ho
      refine ⟨o.header, o.fields, by simp [graph, ho], ?_⟩
      have hplace : place t (.old n) = .old n := by simp [place, hd]
      rw [hplace, graph, hc, map_some, hheader, hfields]
      rfl
  · rcases hcases a ha with ⟨d, hd, hf⟩ | ⟨hd, n, hn, rfl⟩
    · simpa [place, hd] using hf.not_new
    · simp [place, hd, Heap.inNewArea]

lemma Outcome.early_of_evacuated (hready : Ready h roots r)
    (hout : Outcome h roots r.recorded promoteLevel u t) (hevacuated : ∀ a,
      Reaches (graph t.heap.flip) (starts t.heap.flip (roots.map (adjust t)) r.recorded) a →
      h.inNewArea a = false) {a : Address} (ha : Live h roots r.recorded a) (hp :
        ¬ Promotes h roots r.recorded promoteLevel a)
    (hnew : PointsNew h a) : Early h roots r.recorded promoteLevel a := by
  set g := graph t.heap.flip with hg
  set entries := starts t.heap.flip (roots.map (adjust t)) r.recorded with hentries
  have hclear : ∀ a d, copyOf t a = some d → Reaches g entries d → PointsNew h a →
      ¬ Grey h t u.heap.surviveFree none d := by
    rintro a d hd hreach ⟨o, b, ho, hb, hnew⟩ hgrey
    obtain ⟨o', c, ho', hc, -, -, hraw, -⟩ := hout.late.copies a d hd
    obtain rfl : o = o' := Option.some.inj (ho.symm.trans ho')
    have hnode : g d = some (c.header, c.fields) := by
      simp [hg, graph, objects_flip hout (hout.late.fresh a d hd).2.not_new, hc]
    have := hevacuated b (.field hreach hnode (hraw hgrey ▸ hb))
    simp [hnew] at this
  have hreached : ∀ a, Live h roots r.recorded a → ∃ d, copyOf t a = some d ∧ Reaches g entries d :=
    fun a ha => by
    induction ha with
    | @start a hmem hnew =>
      obtain ⟨d, hd⟩ :=
        ne_none_iff_exists'.mp (hout.kept.extends_.ne_none (hout.entries _ hmem hnew))
      refine ⟨d, hd, .start ?_⟩
      rw [hentries, starts_flip hready hout]
      exact List.mem_map.mpr ⟨some a, hmem, by simp [adjust, hd]⟩
    | @field a b o _ _ ho hmem hnew ih =>
      obtain ⟨d, hd, hreach⟩ := ih
      obtain ⟨o', c, ho', hc, -, hfields, hcopied⟩ := hout.copy (hclear a d hd hreach) hd
      obtain rfl : o = o' := Option.some.inj (ho.symm.trans ho')
      obtain ⟨x, hx⟩ := ne_none_iff_exists'.mp (hcopied b hmem hnew)
      have hnode : g d = some (c.header, c.fields) := by simp [hg, graph, hc]
      refine ⟨x, hx, .field hreach hnode ?_⟩
      rw [hfields]
      exact List.mem_map.mpr ⟨some b, hmem, by simp [adjust, hx]⟩
  obtain ⟨d, hd, hreach⟩ := hreached a ha
  by_contra hearly
  exact hclear a d hd hreach hnew ((hout.grey_iff hd).mpr ⟨hp, hearly⟩)

/-- A collection preserves the object graph if and only if the recorded slots hold objects of the
new area and every object that stays there and refers to others is found without passing a promoted
one. -/
theorem preserves_iff_complete (hready : Ready h roots r) (promoteLevel : ℕ) :
    Preserves h roots r.recorded promoteLevel ↔ Complete h roots r.recorded promoteLevel := by
  obtain ⟨hiff, -⟩ := hready.visited promoteLevel
  constructor
  · rintro ⟨h', roots', hrun, -, hevacuated⟩
    obtain ⟨u, t, hout, rfl, rfl⟩ := run_outcome hready hrun
    obtain ⟨v, hv, -⟩ := map_eq_some_iff.mp ((run_eq ..).symm.trans hrun)
    exact ⟨hiff.mp (by rw [hv]; rfl),
      fun a ha hp hnew => hout.early_of_evacuated hready hevacuated ha hp hnew⟩
  · intro hcomplete
    obtain ⟨v, hv⟩ := isSome_iff_exists.mp (hiff.mpr hcomplete.targets)
    obtain ⟨⟨h', roots'⟩, hrun⟩ : ∃ result, run h roots r.recorded promoteLevel = some result :=
      ⟨_, (run_eq ..).trans (map_eq_some_iff.mpr ⟨v, hv, rfl⟩)⟩
    obtain ⟨u, t, hout, rfl, rfl⟩ := run_outcome hready hrun
    obtain ⟨hφ, hplace⟩ := hcomplete.relocates hready hout
    refine ⟨_, _, hrun, ⟨place t, hφ⟩, fun b hb => ?_⟩
    obtain ⟨a, ha, rfl⟩ := hφ.onto hb
    exact hplace a ha

end Preserves

def chain : Heap Unit where
  objects
    | .old 0 => some ⟨(), [some (.semi false 0)], none⟩
    | .semi false 0 => some ⟨(), [some (.semi false 1)], none⟩
    | .semi false 1 => some ⟨(), [some (.semi false 2)], none⟩
    | .semi false 2 => some ⟨(), [], none⟩
    | _ => none
  original := false
  originalFree := 3
  surviveFree := 0
  oldFree := 1
  raw
    | .semi true n => 100 + n
    | .semi false n => 200 + n
    | .old n => 300 + n

def chainRecords : RememberSet Slot (fun _ => 0) := (RememberSet.empty 0).put ⟨.old 0, 0⟩

lemma mem_chainRecords {slot : Slot} : slot ∈ chainRecords.recorded ↔ slot = ⟨.old 0, 0⟩ := by
  rw [RememberSet.mem_recorded, chainRecords, RememberSet.latest_put]
  split_ifs with heq <;> simp [heq, RememberSet.latest_empty]

lemma chain_cases {a : Address} {o : Object Unit} (ho : chain.objects a = some o) :
    (a = .old 0 ∧ o = ⟨(), [some (.semi false 0)], none⟩) ∨
      (a = .semi false 0 ∧ o = ⟨(), [some (.semi false 1)], none⟩) ∨
      (a = .semi false 1 ∧ o = ⟨(), [some (.semi false 2)], none⟩) ∨
        (a = .semi false 2 ∧ o = ⟨(), [], none⟩) := by
  simp only [chain] at ho
  split at ho <;> simp_all

lemma chain_wf : Wf chain where
  unforwarded a o ho := by
    rcases chain_cases ho with ⟨-, rfl⟩ | ⟨-, rfl⟩ | ⟨-, rfl⟩ | ⟨-, rfl⟩ <;> rfl
  survivors i := rfl
  surviveFree := rfl
  originals i o ho := by
    rcases chain_cases ho with ⟨h, -⟩ | ⟨h, -⟩ | ⟨h, -⟩ | ⟨h, -⟩ <;> cases h <;> decide
  olds n o ho := by rcases chain_cases ho with ⟨h, -⟩ | ⟨h, -⟩ | ⟨h, -⟩ | ⟨h, -⟩ <;> cases h; decide
  closed a o b ho hb := by
    rcases chain_cases ho with ⟨-, rfl⟩ | ⟨-, rfl⟩ | ⟨-, rfl⟩ | ⟨-, rfl⟩ <;> simp at hb <;> subst hb
      <;> rfl

lemma chain_ready {roots : List (Option Address)}
    (hroots : ∀ a, some a ∈ roots → (chain.objects a).isSome = true) :
    Ready chain roots chainRecords where
  wf := chain_wf
  roots := hroots
  slots slot hslot := by
    obtain rfl := mem_chainRecords.mp hslot
    exact ⟨rfl, rfl⟩
  recorded slot a hold ha _ := by
    rw [← RememberSet.mem_recorded, mem_chainRecords]
    obtain ⟨host, k⟩ := slot
    obtain ⟨o, ho, hk⟩ := bind_eq_some_iff.mp ha
    rcases chain_cases ho with ⟨h, rfl⟩ | ⟨h, rfl⟩ | ⟨h, rfl⟩ | ⟨h, rfl⟩ <;> cases h
    · cases k with
      | zero => rfl
      | succ k => simp at hk
    all_goals cases hold

lemma chain_early_of_root {a : Address} (ha : PointsNew chain a) (hnew : chain.inNewArea a = true) :
    Early chain [some (.semi false 0)] chainRecords.recorded 100 a := by
  have hfirst : Early chain [some (.semi false 0)] chainRecords.recorded 100 (.semi false 0) :=
    .start (by simp [starts]) rfl
  obtain ⟨o, b, ho, hb, -⟩ := ha
  rcases chain_cases ho with ⟨rfl, rfl⟩ | ⟨rfl, rfl⟩ | ⟨rfl, rfl⟩ | ⟨rfl, rfl⟩
  · cases hnew
  · exact hfirst
  · refine .field hfirst ?_ rfl (by simp) rfl
    rintro (hlt | ⟨hroot, -⟩)
    · exact absurd hlt (by decide)
    · simp at hroot
  · simp at hb

theorem preserves_rooted_chain : Ready chain [some (.semi false 0)] chainRecords ∧
    Preserves chain [some (.semi false 0)] chainRecords.recorded 100 := by
  have hready : Ready chain [some (.semi false 0)] chainRecords := chain_ready fun a ha => by
    obtain rfl : a = .semi false 0 := by simpa using ha
    rfl
  refine ⟨hready, (preserves_iff_complete hready 100).mpr ⟨fun slot hslot => ?_,
    fun a ha _ hnew => ?_⟩⟩
  · obtain rfl := mem_chainRecords.mp hslot
    exact ⟨.semi false 0, rfl, rfl⟩
  · refine chain_early_of_root hnew ?_
    cases ha <;> assumption

/-- Without the root the first object is promoted, and the second one, which is copied because of
it, still refers to the third one in the area that has been left. -/
theorem chain_not_preserved :
    Ready chain [] chainRecords ∧ ¬ Preserves chain [] chainRecords.recorded 100 := by
  have hready : Ready chain [] chainRecords := chain_ready fun a ha => by simp at ha
  refine ⟨hready, ?_⟩
  rintro ⟨h', roots', hrun, -, hevacuated⟩
  obtain ⟨u, t, hout, rfl, rfl⟩ := run_outcome hready hrun
  have hslot : (⟨.old 0, 0⟩ : Slot) ∈ chainRecords.recorded := mem_chainRecords.mpr rfl
  have hentry : ∀ a, some a ∈ starts chain [] chainRecords.recorded → a = .semi false 0 :=
    fun a ha => by
    obtain ⟨slot, hs, hload⟩ := (mem_starts.mp ha).resolve_left (by simp)
    obtain rfl := mem_chainRecords.mp hs
    cases hload
    rfl
  have hlive : Live chain [] chainRecords.recorded (.semi false 1) :=
    .field (.start (mem_starts.mpr (Or.inr ⟨_, hslot, rfl⟩)) rfl) trivial rfl (by simp) rfl
  have hstays : ¬ Promotes chain [] chainRecords.recorded 100 (.semi false 1) := by
    rintro (hlt | ⟨-, slot, hs, hload⟩)
    · exact absurd hlt (by decide)
    · cases hentry _ (mem_starts.mpr (Or.inr ⟨slot, hs, hload⟩))
  have hearly := hout.early_of_evacuated hready hevacuated hlive hstays ⟨_, .semi false 2, rfl,
    by simp, rfl⟩
  cases hearly with
  | start hmem _ => cases hentry _ hmem
  | field _ hthrough ho hmem _ =>
    rcases chain_cases ho with ⟨rfl, rfl⟩ | ⟨rfl, rfl⟩ | ⟨rfl, rfl⟩ | ⟨rfl, rfl⟩ <;> simp at hmem
    exact hthrough (Or.inr ⟨by simp, _, hslot, rfl⟩)

end Mai.LangObjectGraph
