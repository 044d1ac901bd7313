import Mai.LangScavengerSteps

/-! The loops of a minor collection: the records of the remember set, the survivor area, the
promoted objects. -/
namespace Mai.LangScavengerRun
open LangRememberSet LangHeap LangScavenger LangScavengerSteps List

variable {D : Type*} {h : Heap D} {s t : Scavenger D} {i : ℕ} {e : Option Address} {a : Address}
  {M P : Address → Prop}

section Records

/-- The fields of old objects while the records `rest` have not been gone through. -/
structure Remaining (h : Heap D) (s : Scavenger D) (rest : List Slot) : Prop where
  load : ∀ n < h.oldFree, ∀ k, s.heap.load ⟨.old n, k⟩ =
    if ⟨.old n, k⟩ ∈ rest then h.load ⟨.old n, k⟩ else (h.load ⟨.old n, k⟩).map (adjust s)
  copied : ∀ n k a, (⟨.old n, k⟩ : Slot) ∉ rest → h.load ⟨.old n, k⟩ = some (some a) →
    h.inNewArea a = true → copyOf s a ≠ none

lemma Remaining.extend {rest : List Slot} (hrem : Remaining h s rest) (hst : Extends s t)
    (hnew : ∀ a d, copyOf t a = some d → h.inNewArea a = true)
    (holds : ∀ n < h.oldFree, t.heap.objects (.old n) = s.heap.objects (.old n)) :
    Remaining h t rest := by
  refine ⟨fun n hn k => ?_, fun n k a hk ha hna => hst.ne_none (hrem.copied n k a hk ha hna)⟩
  have heq : t.heap.load ⟨.old n, k⟩ = s.heap.load ⟨.old n, k⟩ := by
    simp only [Heap.load, holds n hn]
  rw [heq, hrem.load n hn k]
  split_ifs with hmem
  · rfl
  · refine Option.map_congr fun p hp =>
      (hst.adjust_eq hnew fun a ha => hrem.copied n k a hmem ?_).symm
    rw [Option.mem_def.mp hp, ha]

lemma load_store_self {g : Heap D} {slot : Slot} {p : Option Address}
    (hslot : (g.load slot).isSome = true) :
    (g.store slot p).load slot = some p := by
  cases ho : g.objects slot.host with
  | none => simp [Heap.load, ho] at hslot
  | some o =>
    have hlt : slot.index < o.fields.length := by simpa [Heap.load, ho] using hslot
    simp [Heap.load, Heap.store, onObject_self, ho, hlt]

lemma load_store_ne {g : Heap D} {slot other : Slot} {p : Option Address} (hne : other ≠ slot) :
    (g.store slot p).load other = g.load other := by
  by_cases hhost : other.host = slot.host
  · have hindex : slot.index ≠ other.index := fun hi => hne (by cases other; cases slot; simp_all)
    rw [Heap.load, Heap.load, Heap.store, hhost, onObject_self]
    cases g.objects slot.host <;> simp [hindex]
  · rw [Heap.load, Heap.store, onObject_ne _ _ hhost, ← Heap.load]

lemma inv_store (hinv : Inv h M P s i e) {slot : Slot} {n : ℕ} (hhost : slot.host = .old n)
    (hn : n < h.oldFree) (p : Option Address) :
    Inv h M P { s with heap := s.heap.store slot p } i e ∧
      ∀ b, copyOf { s with heap := s.heap.store slot p } b = copyOf s b := by
  refine ⟨hinv.onObject ?_ (by rw [hhost]; rfl) fun b x hx => ?_,
    copyOf_onObject s slot.host fun _ => rfl⟩
  · exact fun _ => ⟨rfl, rfl⟩
  obtain ⟨o, c, ho, hc, hrest⟩ := hinv.copies b x hx
  refine ⟨o, c, ho, ?_, hrest⟩
  rw [onObject_ne, hc]
  rintro rfl
  have hfresh := (hinv.fresh b _ hx).2
  rw [hhost] at hfresh
  cases hfresh
  omega

variable {slot : Slot} {rest : List Slot} {n : ℕ}

structure Recording (h : Heap D) (M P : Address → Prop) (i : ℕ) (e : Option Address)
    (rest : List Slot) (s t : Scavenger D) : Prop where
  inv : Inv h M P t i e
  remaining : Remaining h t rest
  extends_ : Extends s t
  level : t.promoteLevel = s.promoteLevel
  counts : t.promoted.length + s.heap.oldFree = s.promoted.length + t.heap.oldFree

lemma store_record (hst : Progress h M P i e s t) (hrem : Remaining h s (slot :: rest))
    (hrest : slot ∉ rest) (hhost : slot.host = .old n) (hn : n < h.oldFree)
    (ha : h.load slot = some (some a)) {d : Address} (hd : copyOf t a = some d) :
    Recording h M P i e rest s { t with heap := t.heap.store slot (some d) } := by
  obtain ⟨hinv, hsame⟩ := inv_store hst.inv hhost hn (some d)
  have hremt := hrem.extend hst.extends_ (fun a d hd => (hst.inv.fresh a d hd).1)
    fun m hm => hst.frame _ (Or.inr ⟨m, hm, rfl⟩)
  refine ⟨hinv, ⟨fun m hm k => ?_, fun m k b hk hb hnew => ?_⟩, fun b x hx => ?_, hst.level,
    hst.counts⟩
  · rw [adjust_congr hsame]
    by_cases heq : (⟨.old m, k⟩ : Slot) = slot
    · subst heq
      rw [load_store_self, if_neg hrest, ha, Option.map_some, adjust, Option.map_some, hd,
        Option.getD_some]
      rw [hremt.load m hm k, if_pos (by simp), ha]
      rfl
    · rw [load_store_ne heq, hremt.load m hm k]
      simp only [mem_cons, heq, false_or]
  · rw [hsame]
    by_cases heq : (⟨.old m, k⟩ : Slot) = slot
    · subst heq
      obtain rfl : b = a := by simpa [hb] using ha
      simp [hd]
    · exact hremt.copied m k b (by simp [heq, hk]) hb hnew
  · rw [hsame]
    exact hst.extends_ b x hx

lemma visitRecord_spec (hinv : Inv h M P s i e) (hrem : Remaining h s (slot :: rest))
    (hrest : slot ∉ rest) (hhost : slot.host = .old n) (hn : n < h.oldFree)
    (ha : h.load slot = some (some a)) (hnew : h.inNewArea a = true)
    (hsome : (h.objects a).isSome = true) (hM : M a) (hP : copyOf s a = none → P a) :
    ∃ t, s.visitRecord slot = some t ∧ Recording h M P i e rest s t := by
  have hload : s.heap.load slot = some (some a) := by
    obtain ⟨host, k⟩ := slot
    subst hhost
    rw [hrem.load n hn k, if_pos (by simp), ha]
  obtain ⟨o, ho⟩ : ∃ o, s.heap.objects a = some o := by
    have := hinv.kept a hnew
    cases hs : s.heap.objects a with
    | none => simp [← this, hs] at hsome
    | some o => exact ⟨o, rfl⟩
  cases hf : o.forward with
  | some forward =>
    have hcopy : copyOf s a = some forward := by simp [copyOf, ho, hf]
    exact ⟨_, by simp [Scavenger.visitRecord, hload, ho, hf],
      store_record (Progress.refl hinv) hrem hrest hhost hn ha hcopy⟩
  | none =>
    have hnone : copyOf s a = none := by simp [copyOf, ho, hf]
    have hin : s.heap.inNewArea a = true := by
      rw [← hnew]
      cases a <;> simp [Heap.inNewArea, hinv.original]
    have hcopy : copyOf (s.move a o true) a = some (s.heap.destination true) := by
      rw [copyOf_move hinv hf hnew, if_pos rfl]
    exact ⟨_, by simp [Scavenger.visitRecord, hload, ho, hf, hin],
      store_record (progress_move hinv ho hf hnew hM (by simp [hP hnone])) hrem hrest hhost hn ha
      hcopy⟩

lemma new_of_visitRecord (hinv : Inv h M P s i e) (hrem : Remaining h s (slot :: rest))
    (hhost : slot.host = .old n) (hn : n < h.oldFree) (ht : s.visitRecord slot = some t) :
    ∃ a, h.load slot = some (some a) ∧ h.inNewArea a = true := by
  have hload : s.heap.load slot = h.load slot := by
    obtain ⟨host, k⟩ := slot
    subst hhost
    rw [hrem.load n hn k, if_pos (by simp)]
  rw [Scavenger.visitRecord, hload] at ht
  obtain ⟨a, ha, ht⟩ := Option.bind_eq_some_iff.mp ht
  obtain ⟨o, ho, ht⟩ := Option.bind_eq_some_iff.mp ht
  refine ⟨a, Option.join_eq_some_iff.mp ha, ?_⟩
  cases hf : o.forward with
  | some forward => exact (hinv.fresh a forward (by simp [copyOf, ho, hf])).1
  | none =>
    by_contra hnew
    have hin : s.heap.inNewArea a = h.inNewArea a := by
      cases a <;> simp [Heap.inNewArea, hinv.original]
    simp [hf, hin, hnew] at ht

lemma visitRecords_spec (hwf : Wf h) (hinv : Inv h M P s i e) (hrem : Remaining h s rest)
    (hnodup : rest.Nodup) (hhosts : ∀ slot ∈ rest, ∃ n < h.oldFree, slot.host = .old n)
    (hM : ∀ slot ∈ rest, ∀ a, h.load slot = some (some a) → h.inNewArea a = true → M a ∧
      (copyOf s a = none → P a)) :
    ((rest.foldlM Scavenger.visitRecord s).isSome = true ↔
      ∀ slot ∈ rest, ∃ a, h.load slot = some (some a) ∧ h.inNewArea a = true) ∧
    ∀ t, rest.foldlM Scavenger.visitRecord s = some t → Recording h M P i e [] s t := by
  induction rest generalizing s with
  | nil =>
    refine ⟨by simp, fun t ht => ?_⟩
    obtain rfl : s = t := by simpa using ht
    exact ⟨hinv, hrem, fun _ _ hd => hd, rfl, rfl⟩
  | cons slot rest ih =>
    obtain ⟨hrest, hnodup⟩ := nodup_cons.mp hnodup
    obtain ⟨n, hn, hhost⟩ := hhosts slot (by simp)
    by_cases hslot : ∃ a, h.load slot = some (some a) ∧ h.inNewArea a = true
    · obtain ⟨a, ha, hnew⟩ := hslot
      obtain ⟨hMa, hPa⟩ := hM slot (by simp) a ha hnew
      have hsome : (h.objects a).isSome = true := by
        obtain ⟨o, ho, hmem⟩ := Option.bind_eq_some_iff.mp ha
        exact hwf.closed _ o a ho (mem_of_getElem? hmem)
      obtain ⟨t, ht, hrec⟩ := visitRecord_spec hinv hrem hrest hhost hn ha hnew hsome hMa hPa
      have hothers : ∀ other ∈ rest, ∀ b, h.load other = some (some b) → h.inNewArea b = true →
          M b ∧ (copyOf t b = none → P b) := fun other hother b hb hnew => by
        obtain ⟨hMb, hPb⟩ := hM other (by simp [hother]) b hb hnew
        exact ⟨hMb, fun hnone => hPb (by_contra fun hne => hrec.extends_.ne_none hne hnone)⟩
      obtain ⟨hiff, hall⟩ := ih hrec.inv hrec.remaining hnodup
        (fun other hother => hhosts other (by simp [hother])) hothers
      rw [foldlM_cons, ht]
      refine ⟨?_, fun u hu => ?_⟩
      · rw [forall_mem_cons]
        exact hiff.trans ⟨fun hr => ⟨⟨a, ha, hnew⟩, hr⟩, fun hr => hr.2⟩
      · have hfinal := hall u hu
        have := hrec.counts
        have := hfinal.counts
        exact ⟨hfinal.inv, hfinal.remaining,
          fun b x hx => hfinal.extends_ b x (hrec.extends_ b x hx), hfinal.level.trans hrec.level,
          by omega⟩
    · have hnone : s.visitRecord slot = none := by
        by_contra hne
        obtain ⟨t, ht⟩ := Option.ne_none_iff_exists'.mp hne
        exact hslot (new_of_visitRecord hinv hrem hhost hn ht)
      rw [foldlM_cons, hnone]
      refine ⟨⟨fun hr => by simp at hr, fun hr => (hslot (hr slot (by simp))).elim⟩,
        fun t ht => by simp at ht⟩

end Records

lemma Inv.regrey (hinv : Inv h M P s i e) {q : List Address} {i' : ℕ} {e' : Option Address}
    (hq : q.Sublist s.promoted) (hscanned : i' ≤ s.heap.surviveFree)
    (hgrey : ∀ d, Grey h { s with promoted := q } i' e' d ↔ Grey h s i e d) :
    Inv h M P { s with promoted := q } i' e' where
  original := hinv.original
  raw := hinv.raw
  kept := hinv.kept
  olds := hinv.olds
  oldFree := hinv.oldFree
  fresh a d hd := ⟨(hinv.fresh a d hd).1, (hinv.fresh a d hd).2.congr rfl rfl⟩
  taken d hd := hinv.taken d (hd.congr rfl rfl)
  injective := hinv.injective
  copies a d hd := by
    obtain ⟨o, c, ho, hc, hheader, hforward, hraw, hdone⟩ := hinv.copies a d hd
    exact ⟨o, c, ho, hc, hheader, hforward, fun hg => hraw ((hgrey d).mp hg),
      fun hg => hdone fun hg' => hg ((hgrey d).mpr hg')⟩
  queue d hd := hinv.queue d (hq.subset hd)
  nodup := hinv.nodup.sublist hq
  members := hinv.members
  scanned := hscanned
  bounded d hd := (hinv.bounded d hd).imp_right (Or.imp_left fun hf => hf.congr rfl rfl)

lemma Inv.mono (hinv : Inv h M P s i e) {M' : Address → Prop} (hM : ∀ a, M a → M' a) :
    Inv h M' P s i e :=
  { hinv with members := fun a d hd => ⟨hM a (hinv.members a d hd).1, (hinv.members a d hd).2⟩ }

lemma Inv.le_originalFree (hwf : Wf h) (hinv : Inv h M P s i e) {n : ℕ} (place : ℕ → Address)
    (hinj : Function.Injective place) (hfresh : ∀ k < n, Fresh h s (place k)) :
    n ≤ h.originalFree := by
  have hsource : ∀ k : Fin n, ∃ m : Fin h.originalFree, copyOf s (.semi h.original m) =
      some (place k) := fun k => by
    obtain ⟨a, ha⟩ := hinv.taken _ (hfresh k k.isLt)
    obtain ⟨o, -, ho, -⟩ := hinv.copies a _ ha
    have hnew := (hinv.fresh a _ ha).1
    cases a with
    | semi area m =>
      obtain rfl : area = h.original := by simpa [Heap.inNewArea] using hnew
      exact ⟨⟨m, hwf.originals m o ho⟩, ha⟩
    | old m => simp [Heap.inNewArea] at hnew
  choose source hsource using hsource
  have hcard := Fintype.card_le_of_injective source fun k l hkl => by
    have heq : some (place k) = some (place l) := by rw [← hsource k, ← hsource l, hkl]
    exact Fin.ext (hinj (Option.some.inj heq))
  simpa using hcard

lemma scanSurvivors_spec (hwf : Wf h) (hinv : Inv h M P s i none)
    (hclosed : ∀ a o b, M a → ¬ P a → h.objects a = some o → some b ∈ o.fields →
      h.inNewArea b = true → M b)
    (hlevel : ∀ b, copyOf s b = none → (h.raw b < s.promoteLevel ↔ P b)) (fuel : ℕ) :
    ∃ j, Inv h M P (s.scanSurvivors i fuel) j none ∧ Kept h s (s.scanSurvivors i fuel) ∧
      (s.scanSurvivors i fuel).promoted.length + s.heap.oldFree =
        s.promoted.length + (s.scanSurvivors i fuel).heap.oldFree ∧
      (j = (s.scanSurvivors i fuel).heap.surviveFree ∨ j = i + fuel) := by
  induction fuel generalizing s i with
  | zero => exact ⟨i, hinv, Kept.refl s, rfl, Or.inr rfl⟩
  | succ fuel ih =>
    by_cases hi : i < s.heap.surviveFree
    · have hstep : s.scanSurvivors i (fuel + 1) =
          (s.iterateObject (.semi (!h.original) i)).scanSurvivors (i + 1) fuel := by
        rw [Scavenger.scanSurvivors, if_pos hi, hinv.original]
      obtain ⟨a, ha⟩ := hinv.taken _ (.survive i hi)
      obtain ⟨o, -, ho, -⟩ := hinv.copies a _ ha
      obtain ⟨hMa, hPa⟩ := hinv.members a _ ha
      have hinv' : Inv h M P s (i + 1) (some (.semi (!h.original) i)) := by
        refine Inv.regrey hinv (List.Sublist.refl _) hi fun d => ?_
        have hk : (∃ k, i ≤ k ∧ d = .semi (!h.original) k) ↔
            (∃ k, i + 1 ≤ k ∧ d = .semi (!h.original) k) ∨ d = .semi (!h.original) i :=
          ⟨fun ⟨k, hk, hd⟩ => (Nat.eq_or_lt_of_le hk).elim (fun heq => Or.inr (heq ▸ hd)) fun hlt =>
            Or.inl ⟨k, hlt, hd⟩,
            fun hor => hor.elim (fun ⟨k, hk, hd⟩ => ⟨k, by omega, hd⟩) fun hd => ⟨i, le_rfl, hd⟩⟩
        simp only [Grey, hk, Option.some.injEq, reduceCtorEq, or_false, or_assoc, eq_comm]
      obtain ⟨hinv'', hkept, hcounts⟩ := iterateObject_spec hwf hinv' ha ho
        (fun hq => by
          obtain ⟨n, -, -, heq⟩ := hinv.queue _ hq
          cases heq)
        (fun k hk heq => by
          cases heq
          omega)
        fun p hp b hb => ⟨hwf.closed a o b ho (hb ▸ hp), fun hnew =>
          ⟨hclosed a o b hMa (fun hP => by simpa [Heap.inOldArea] using hPa.mpr hP) ho (hb ▸ hp)
            hnew, hlevel b⟩⟩
      obtain ⟨j, hinvj, hkeptj, hcountsj, hj⟩ := ih hinv'' fun b hb => by
        rw [hkept.level]
        exact hlevel b (by_contra fun hne => hkept.extends_.ne_none hne hb)
      rw [hstep]
      exact ⟨j, hinvj, hkept.trans hkeptj, by omega, by omega⟩
    · have hstep : s.scanSurvivors i (fuel + 1) = s := by rw [Scavenger.scanSurvivors, if_neg hi]
      rw [hstep]
      have := hinv.scanned
      exact ⟨i, hinv, Kept.refl s, rfl, Or.inl (by omega)⟩

lemma scanPromoted_spec (hwf : Wf h) (hinv : Inv h M P s i none)
    (hclosed : ∀ a o b, M a → P a → h.objects a = some o → some b ∈ o.fields →
      h.inNewArea b = true → M b)
    (hlevel : ∀ b, copyOf s b = none → (h.raw b < s.promoteLevel ↔ P b)) (fuel : ℕ) :
    Inv h M P (s.scanPromoted fuel) i none ∧ Kept h s (s.scanPromoted fuel) ∧
      ((s.scanPromoted fuel).promoted = [] ∨
        (s.scanPromoted fuel).promoted.length + fuel + s.heap.oldFree =
        s.promoted.length + (s.scanPromoted fuel).heap.oldFree) := by
  induction fuel generalizing s with
  | zero => exact ⟨hinv, Kept.refl s, Or.inr rfl⟩
  | succ fuel ih =>
    cases hq : s.promoted with
    | nil =>
      have hstep : s.scanPromoted (fuel + 1) = s := by rw [Scavenger.scanPromoted, hq]
      rw [hstep]
      exact ⟨hinv, Kept.refl s, Or.inl hq⟩
    | cons d rest =>
      have hstep : s.scanPromoted (fuel + 1) =
          ({ s with promoted := rest }.iterateObject d).scanPromoted fuel := by
        rw [Scavenger.scanPromoted, hq]
      obtain ⟨n, hn, hlt, rfl⟩ := hinv.queue d (by simp [hq])
      obtain ⟨a, ha⟩ := hinv.taken _ (.old n hn hlt)
      obtain ⟨o, -, ho, -⟩ := hinv.copies a _ ha
      obtain ⟨hMa, hPa⟩ := hinv.members a _ ha
      have hnodup := hq ▸ hinv.nodup
      have hinv' : Inv h M P { s with promoted := rest } i (some (.old n)) := by
        refine Inv.regrey hinv (by simp [hq]) hinv.scanned fun d => ?_
        simp only [Grey, hq, mem_cons, Option.some.injEq, reduceCtorEq, or_false, eq_comm]
        exact or_comm.trans or_assoc.symm
      obtain ⟨hinv'', hkept, hcounts⟩ :=
        iterateObject_spec hwf hinv' ha ho (nodup_cons.mp hnodup).1 (by simp)
        fun p hp b hb => ⟨hwf.closed a o b ho (hb ▸ hp), fun hnew =>
          ⟨hclosed a o b hMa (hPa.mp rfl) ho (hb ▸ hp) hnew, hlevel b⟩⟩
      obtain ⟨hinvj, hkeptj, hj⟩ := ih hinv'' fun b hb => by
        rw [hkept.level]
        exact hlevel b (by_contra fun hne => hkept.extends_.ne_none hne hb)
      rw [hstep]
      refine ⟨hinvj, ⟨fun b x hx => ?_, fun m hm => ?_, ?_⟩, hj.imp_right fun hlen => ?_⟩
      · exact hkeptj.extends_ b x (hkept.extends_ b x hx)
      · exact (hkeptj.olds m hm).trans (hkept.olds m hm)
      · exact hkeptj.level.trans hkept.level
      · simp only [length_cons] at *
        omega

end Mai.LangScavengerRun
