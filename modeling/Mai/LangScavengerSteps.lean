import Mai.LangScavenger

/-! What the pieces of a minor collection do: every object is copied once, and the copies that have
been looked at refer to copies. -/
namespace Mai.LangScavengerSteps
open LangRememberSet LangHeap LangScavenger List Option

variable {D : Type*}

structure Wf (h : Heap D) : Prop where
  unforwarded : ∀ a o, h.objects a = some o → o.forward = none
  survivors : ∀ i, h.objects (.semi (!h.original) i) = none
  surviveFree : h.surviveFree = 0
  originals : ∀ i o, h.objects (.semi h.original i) = some o → i < h.originalFree
  olds : ∀ n o, h.objects (.old n) = some o → n < h.oldFree
  closed : ∀ a o b, h.objects a = some o → some b ∈ o.fields → (h.objects b).isSome = true

section Invariant
variable {h : Heap D} {s t : Scavenger D} {i : ℕ} {a b d : Address} {p : Option Address}
  {M P : Address → Prop}

def copyOf (s : Scavenger D) (a : Address) : Option Address :=
  (s.heap.objects a).bind Object.forward

def adjust (s : Scavenger D) (p : Option Address) : Option Address :=
  p.map fun a => (copyOf s a).getD a

/-- A copy that waits to be looked at: queued, behind the survivors before `i`, or `e`, which is
looked at now. -/
def Grey (h : Heap D) (s : Scavenger D) (i : ℕ) (e : Option Address) (d : Address) : Prop :=
  (d ∈ s.promoted ∨ ∃ k, i ≤ k ∧ d = .semi (!h.original) k) ∨ e = some d

def Adjusted (h : Heap D) (s : Scavenger D) (o : Object D) (fields : List (Option Address)) :
    Prop :=
  fields = o.fields.map (adjust s) ∧ ∀ b, some b ∈ o.fields → h.inNewArea b = true →
    copyOf s b ≠ none

inductive Fresh (h : Heap D) (s : Scavenger D) : Address → Prop
  | old (n : ℕ) (hn : h.oldFree ≤ n) (hlt : n < s.heap.oldFree) : Fresh h s (.old n)
  | survive (k : ℕ) (hk : k < s.heap.surviveFree) : Fresh h s (.semi (!h.original) k)

/-- The state of a collection of `h`. `M` holds of the objects that have been copied, `P` of those
among them that are promoted. -/
structure Inv (h : Heap D) (M P : Address → Prop) (s : Scavenger D) (i : ℕ) (e : Option Address) :
    Prop where
  original : s.heap.original = h.original
  raw : s.heap.raw = h.raw
  kept : ∀ a, h.inNewArea a = true → (s.heap.objects a).map (fun o => { o with forward := none }) =
    h.objects a
  olds : ∀ n < h.oldFree, (s.heap.objects (.old n)).map (fun o => (o.header, o.forward)) =
    (h.objects (.old n)).map fun o => (o.header, none)
  oldFree : h.oldFree ≤ s.heap.oldFree
  fresh : ∀ a d, copyOf s a = some d → h.inNewArea a = true ∧ Fresh h s d
  taken : ∀ d, Fresh h s d → ∃ a, copyOf s a = some d
  injective : ∀ a b d, copyOf s a = some d → copyOf s b = some d → a = b
  copies : ∀ a d, copyOf s a = some d → ∃ o c, h.objects a = some o ∧ s.heap.objects d = some c ∧
    c.header = o.header ∧
    c.forward = none ∧ (Grey h s i e d → c.fields = o.fields) ∧
    (¬ Grey h s i e d → Adjusted h s o c.fields)
  queue : ∀ d ∈ s.promoted, ∃ n, h.oldFree ≤ n ∧ n < s.heap.oldFree ∧ d = .old n
  nodup : s.promoted.Nodup
  members : ∀ a d, copyOf s a = some d → M a ∧ (Heap.inOldArea d = true ↔ P a)
  scanned : i ≤ s.heap.surviveFree
  bounded : ∀ d, s.heap.objects d ≠ none → h.inNewArea d = true ∨ Fresh h s d ∨ ∃ n < h.oldFree,
    d = .old n

def Extends (s t : Scavenger D) : Prop := ∀ a d, copyOf s a = some d → copyOf t a = some d

lemma Extends.adjust_eq (hst : Extends s t)
    (hnew : ∀ a d, copyOf t a = some d → h.inNewArea a = true) (hp : ∀ a, p = some a →
      h.inNewArea a = true → copyOf s a ≠ none) : adjust t p = adjust s p := by
  cases p with
  | none => rfl
  | some a =>
    by_cases ha : h.inNewArea a = true
    · obtain ⟨d, hd⟩ := ne_none_iff_exists'.mp (hp a rfl ha)
      simp [adjust, hd, hst a d hd]
    · have ht : copyOf t a = none := by_contra fun hne => by
        obtain ⟨d, hd⟩ := ne_none_iff_exists'.mp hne
        exact ha (hnew a d hd)
      have hs : copyOf s a = none := by_contra fun hne => by
        obtain ⟨d, hd⟩ := ne_none_iff_exists'.mp hne
        simp [hst a d hd] at ht
      simp [adjust, hs, ht]

lemma Extends.ne_none (hst : Extends s t) (ha : copyOf s a ≠ none) : copyOf t a ≠ none := by
  obtain ⟨d, hd⟩ := ne_none_iff_exists'.mp ha
  simp [hst a d hd]

lemma Extends.adjusted (hst : Extends s t)
    (hnew : ∀ a d, copyOf t a = some d → h.inNewArea a = true) {o : Object D}
    {fields : List (Option Address)} (ha : Adjusted h s o fields) : Adjusted h t o fields := by
  obtain ⟨rfl, hmoved⟩ := ha
  refine ⟨map_congr_left fun p hp => (hst.adjust_eq hnew fun a ha => ?_).symm,
    fun b hb hn => hst.ne_none (hmoved b hb hn)⟩
  exact hmoved a (ha ▸ hp)

end Invariant

section Move
variable {h : Heap D} {s : Scavenger D} {i : ℕ} {e : Option Address} {a b d : Address}
  {o : Object D} {promote : Bool} {M P : Address → Prop}

lemma Fresh.not_new (hf : Fresh h s d) : h.inNewArea d = false := by
  cases hf <;> simp [Heap.inNewArea]

lemma destination_not_new (hinv : Inv h M P s i e) (promote : Bool) :
    h.inNewArea (s.heap.destination promote) = false := by
  cases promote <;> simp [Heap.destination, Heap.inNewArea, hinv.original]

lemma destination_not_fresh (hinv : Inv h M P s i e) (promote : Bool) :
    ¬ Fresh h s (s.heap.destination promote) := by
  intro hf
  generalize hd : s.heap.destination promote = d at hf
  cases hf <;> cases promote <;> simp [Heap.destination, hinv.original] at hd <;> omega

lemma fresh_move (hinv : Inv h M P s i e) :
    Fresh h (s.move a o promote) d ↔ Fresh h s d ∨ d = s.heap.destination promote := by
  have hle := hinv.oldFree
  constructor
  · rintro (⟨n, hn, hlt⟩ | ⟨k, hk⟩)
    · cases promote with
      | true =>
        rcases Nat.lt_succ_iff_lt_or_eq.mp hlt with hlt | rfl
        · exact Or.inl (.old n hn hlt)
        · exact Or.inr rfl
      | false => exact Or.inl (.old n hn hlt)
    · cases promote with
      | true => exact Or.inl (.survive k hk)
      | false =>
        rcases Nat.lt_succ_iff_lt_or_eq.mp hk with hk | rfl
        · exact Or.inl (.survive k hk)
        · exact Or.inr (by rw [← hinv.original]; rfl)
  · rintro (hf | rfl)
    · cases hf with
      | old n hn hlt =>
        refine .old n hn ?_
        cases promote <;> simp [Scavenger.move, Heap.moveNewSpaceObject] <;> omega
      | survive k hk =>
        refine .survive k ?_
        cases promote <;> simp [Scavenger.move, Heap.moveNewSpaceObject] <;> omega
    · cases promote with
      | true => exact .old s.heap.oldFree hle (Nat.lt_succ_self _)
      | false =>
        have hfresh : Fresh h (s.move a o false) (.semi (!h.original) s.heap.surviveFree) :=
          .survive s.heap.surviveFree (Nat.lt_succ_self _)
        rwa [← hinv.original] at hfresh

lemma copyOf_of_not_new (hinv : Inv h M P s i e) (hb : h.inNewArea b = false) :
    copyOf s b = none := by
  by_contra hne
  obtain ⟨d, hd⟩ := ne_none_iff_exists'.mp hne
  simp [(hinv.fresh b d hd).1] at hb

lemma objects_move (hb : b ≠ a) (hd : b ≠ s.heap.destination promote) :
    (s.move a o promote).heap.objects b = s.heap.objects b := by
  simp [Scavenger.move, Heap.moveNewSpaceObject, hb, hd]

lemma objects_move_destination (hne : s.heap.destination promote ≠ a) :
    (s.move a o promote).heap.objects (s.heap.destination promote) = some o := by
  simp [Scavenger.move, Heap.moveNewSpaceObject, hne]

lemma objects_move_self : (s.move a o promote).heap.objects a =
    some { o with forward := some (s.heap.destination promote) } := by
  simp [Scavenger.move, Heap.moveNewSpaceObject]

lemma destination_ne (hinv : Inv h M P s i e) (hnew : h.inNewArea a = true) :
    s.heap.destination promote ≠ a := fun heq => by
  have := destination_not_new hinv promote
  simp [heq, hnew] at this

lemma copyOf_move (hinv : Inv h M P s i e) (ho : o.forward = none) (hnew : h.inNewArea a = true)
    (b : Address) :
    copyOf (s.move a o promote) b = if b = a then some (s.heap.destination promote)
      else copyOf s b := by
  split_ifs with hb
  · simp [copyOf, hb, objects_move_self]
  · by_cases hd : b = s.heap.destination promote
    · rw [copyOf_of_not_new hinv (hd ▸ destination_not_new hinv promote), copyOf, hd,
        objects_move_destination (destination_ne hinv hnew)]
      simp [ho]
    · rw [copyOf, objects_move hb hd, copyOf]

lemma Inv.kept_object (hinv : Inv h M P s i e) (hnew : h.inNewArea a = true)
    (hs : s.heap.objects a = some o) (ho : o.forward = none) : h.objects a = some o := by
  rw [← hinv.kept a hnew, hs, map_some]
  congr 1
  cases o
  simp_all

lemma grey_move (hd : d ≠ s.heap.destination promote) :
    Grey h (s.move a o promote) i e d ↔ Grey h s i e d := by
  cases promote <;> simp [Grey, Scavenger.move, hd]

/-- The object that is moved is grey. -/
lemma grey_destination (hinv : Inv h M P s i e) :
    Grey h (s.move a o promote) i e (s.heap.destination promote) := by
  cases promote with
  | true => exact Or.inl (Or.inl (by simp [Scavenger.move]))
  | false =>
    exact Or.inl (Or.inr ⟨s.heap.surviveFree, hinv.scanned, by rw [← hinv.original]; rfl⟩)

lemma copyOf_move_cases (hinv : Inv h M P s i e) (ho : o.forward = none)
    (hnew : h.inNewArea a = true) (hd : copyOf (s.move a o promote) b = some d) :
    b = a ∧ d = s.heap.destination promote ∨ copyOf s b = some d := by
  rw [copyOf_move hinv ho hnew] at hd
  split_ifs at hd with hba
  · exact Or.inl ⟨hba, (Option.some.inj hd).symm⟩
  · exact Or.inr hd

lemma Inv.extends_move (hinv : Inv h M P s i e) (hs : s.heap.objects a = some o)
    (ho : o.forward = none) (hnew : h.inNewArea a = true) : Extends s (s.move a o promote) := by
  intro b d hd
  have hba : b ≠ a := fun hb => by simp [hb, copyOf, hs, ho] at hd
  rw [copyOf_move hinv ho hnew, if_neg hba, hd]

lemma Inv.copies_move (hinv : Inv h M P s i e) (hs : s.heap.objects a = some o)
    (ho : o.forward = none) (hnew : h.inNewArea a = true)
    (hd : copyOf (s.move a o promote) b = some d) :
    ∃ o' c, h.objects b = some o' ∧ (s.move a o promote).heap.objects d = some c ∧
      c.header = o'.header ∧ c.forward = none ∧
      (Grey h (s.move a o promote) i e d → c.fields = o'.fields) ∧
      (¬ Grey h (s.move a o promote) i e d → Adjusted h (s.move a o promote) o' c.fields) := by
  rcases copyOf_move_cases hinv ho hnew hd with ⟨rfl, rfl⟩ | hd
  · exact ⟨o, o, hinv.kept_object hnew hs ho, objects_move_destination (destination_ne hinv hnew),
      rfl, ho, fun _ => rfl, fun hwhite => absurd (grey_destination hinv) hwhite⟩
  · have hfresh := (hinv.fresh b d hd).2
    have hdest : d ≠ s.heap.destination promote :=
      fun heq => destination_not_fresh hinv promote (heq ▸ hfresh)
    obtain ⟨o', c, ho', hc, hheader, hforward, hraw, hdone⟩ := hinv.copies b d hd
    refine ⟨o', c, ho', ?_, hheader, hforward, fun hg => hraw ((grey_move hdest).mp hg),
      fun hg => ?_⟩
    · rw [objects_move _ hdest, hc]
      rintro rfl
      simp [hfresh.not_new] at hnew
    · refine (hinv.extends_move hs ho hnew).adjusted (fun x f he => ?_)
        (hdone fun hg' => hg ((grey_move hdest).mpr hg'))
      rcases copyOf_move_cases hinv ho hnew he with ⟨rfl, -⟩ | he
      · exact hnew
      · exact (hinv.fresh x f he).1

lemma Inv.injective_move (hinv : Inv h M P s i e) (ho : o.forward = none)
    (hnew : h.inNewArea a = true) {c : Address} (hb : copyOf (s.move a o promote) b = some d)
    (hc : copyOf (s.move a o promote) c = some d) : b = c := by
  have hfresh : ∀ {x}, copyOf s x = some (s.heap.destination promote) → False := fun he =>
    destination_not_fresh hinv promote (hinv.fresh _ _ he).2
  rcases copyOf_move_cases hinv ho hnew hb with ⟨rfl, rfl⟩ | hb
  · rcases copyOf_move_cases hinv ho hnew hc with ⟨rfl, -⟩ | hc
    · rfl
    · exact (hfresh hc).elim
  · rcases copyOf_move_cases hinv ho hnew hc with ⟨-, rfl⟩ | hc
    · exact (hfresh hb).elim
    · exact hinv.injective b c d hb hc

lemma Inv.promoted_move (hinv : Inv h M P s i e) :
    (∀ d ∈ (s.move a o promote).promoted, ∃ n, h.oldFree ≤ n ∧
      n < (s.move a o promote).heap.oldFree ∧ d = .old n) ∧
      (s.move a o promote).promoted.Nodup := by
  cases promote with
  | false => exact ⟨hinv.queue, hinv.nodup⟩
  | true =>
    refine ⟨fun d hd => ?_, nodup_append.mpr ⟨hinv.nodup, nodup_singleton _, fun d hd e he => ?_⟩⟩
    · rcases mem_append.mp hd with hd | hd
      · obtain ⟨n, hn, hlt, rfl⟩ := hinv.queue d hd
        exact ⟨n, hn, hlt.trans (Nat.lt_succ_self _), rfl⟩
      · obtain rfl := mem_singleton.mp hd
        exact ⟨s.heap.oldFree, hinv.oldFree, Nat.lt_succ_self _, rfl⟩
    · obtain rfl := mem_singleton.mp he
      rintro rfl
      obtain ⟨n, hn, hlt, heq⟩ := hinv.queue _ hd
      exact destination_not_fresh hinv true (heq ▸ .old n hn hlt)

lemma Inv.move (hinv : Inv h M P s i e) (hs : s.heap.objects a = some o) (ho : o.forward = none)
    (hnew : h.inNewArea a = true) (hM : M a) (hP : promote = true ↔ P a) :
    Inv h M P (s.move a o promote) i e where
  original := hinv.original
  raw := hinv.raw
  kept b hb := by
    by_cases hba : b = a
    · subst hba
      rw [objects_move_self, ← hinv.kept b hb, hs]
      rfl
    · rw [objects_move hba fun heq => by simp [heq, destination_not_new hinv] at hb, hinv.kept b hb]
  olds n hn := by
    rw [objects_move, hinv.olds n hn]
    · rintro rfl
      simp [Heap.inNewArea] at hnew
    · intro heq
      cases promote <;> simp [Heap.destination] at heq
      have := hinv.oldFree
      omega
  oldFree := by
    have := hinv.oldFree
    cases promote <;> simp [Scavenger.move, Heap.moveNewSpaceObject] <;> omega
  fresh b d hd := by
    rcases copyOf_move_cases hinv ho hnew hd with ⟨rfl, rfl⟩ | hd
    · exact ⟨hnew, (fresh_move hinv).mpr (Or.inr rfl)⟩
    · exact ⟨(hinv.fresh b d hd).1, (fresh_move hinv).mpr (Or.inl (hinv.fresh b d hd).2)⟩
  taken d hd := by
    rcases (fresh_move hinv).mp hd with hd | rfl
    · obtain ⟨b, hb⟩ := hinv.taken d hd
      exact ⟨b, hinv.extends_move hs ho hnew b d hb⟩
    · exact ⟨a, by rw [copyOf_move hinv ho hnew, if_pos rfl]⟩
  injective b c d := hinv.injective_move ho hnew
  copies b d := hinv.copies_move hs ho hnew
  queue := hinv.promoted_move.1
  nodup := hinv.promoted_move.2
  members b d hd := by
    rcases copyOf_move_cases hinv ho hnew hd with ⟨rfl, rfl⟩ | hd
    · refine ⟨hM, ?_⟩
      rw [← hP]
      cases promote <;> simp [Heap.destination, Heap.inOldArea]
    · exact hinv.members b d hd
  scanned := by
    have := hinv.scanned
    cases promote <;> simp [Scavenger.move, Heap.moveNewSpaceObject] <;> omega
  bounded d hd := by
    by_cases hda : d = a
    · exact Or.inl (hda ▸ hnew)
    · by_cases hdest : d = s.heap.destination promote
      · exact Or.inr (Or.inl ((fresh_move hinv).mpr (Or.inr hdest)))
      · rw [objects_move hda hdest] at hd
        exact (hinv.bounded d hd).imp_right
          (Or.imp_left fun hf => (fresh_move hinv).mpr (Or.inl hf))

end Move

section Visit
variable {h : Heap D} {s t u : Scavenger D} {i : ℕ} {e p : Option Address} {M P : Address → Prop}

structure Progress (h : Heap D) (M P : Address → Prop) (i : ℕ) (e : Option Address)
    (s t : Scavenger D) : Prop where
  inv : Inv h M P t i e
  extends_ : Extends s t
  grows : ∀ d, Fresh h s d → Fresh h t d
  frame : ∀ d, (Fresh h s d ∨ ∃ n < h.oldFree, d = .old n) → t.heap.objects d = s.heap.objects d
  level : t.promoteLevel = s.promoteLevel
  queued : ∀ d ∈ t.promoted, Fresh h s d → d ∈ s.promoted
  counts : t.promoted.length + s.heap.oldFree = s.promoted.length + t.heap.oldFree

lemma Progress.refl (hinv : Inv h M P s i e) : Progress h M P i e s s :=
  ⟨hinv, fun _ _ hd => hd, fun _ hd => hd, fun _ _ => rfl, rfl, fun _ hd _ => hd, rfl⟩

lemma Progress.trans (hst : Progress h M P i e s t) (htu : Progress h M P i e t u) :
    Progress h M P i e s u where
  inv := htu.inv
  extends_ a d hd := htu.extends_ a d (hst.extends_ a d hd)
  grows d hd := htu.grows d (hst.grows d hd)
  frame d hd := (htu.frame d (hd.imp_left (hst.grows d))).trans (hst.frame d hd)
  level := htu.level.trans hst.level
  queued d hd hf := hst.queued d (htu.queued d hd (hst.grows d hf)) hf
  counts := by
    have := hst.counts
    have := htu.counts
    omega

/-- A pointer may be visited if its target exists and, when it is new, belongs to `M` and would be
promoted as `P` says. -/
def Visitable (h : Heap D) (M P : Address → Prop) (s : Scavenger D) (p : Option Address) : Prop :=
  ∀ a, p = some a → (h.objects a).isSome = true ∧
    (h.inNewArea a = true → M a ∧ (copyOf s a = none → (h.raw a < s.promoteLevel ↔ P a)))

lemma Progress.visitable (hst : Progress h M P i e s t) (hp : Visitable h M P s p) :
    Visitable h M P t p := by
  intro a ha
  obtain ⟨hsome, hnew⟩ := hp a ha
  refine ⟨hsome, fun hn => ⟨(hnew hn).1, fun hnone => ?_⟩⟩
  rw [hst.level]
  refine (hnew hn).2 (by_contra fun hne => ?_)
  obtain ⟨d, hd⟩ := ne_none_iff_exists'.mp hne
  simp [hst.extends_ a d hd] at hnone

lemma progress_move (hinv : Inv h M P s i e) {a : Address} {o : Object D} {promote : Bool}
    (hs : s.heap.objects a = some o) (ho : o.forward = none) (hnew : h.inNewArea a = true)
    (hM : M a) (hP : promote = true ↔ P a) :
    Progress h M P i e s (s.move a o promote) := by
  refine ⟨hinv.move hs ho hnew hM hP, hinv.extends_move hs ho hnew,
    fun d hd => (fresh_move hinv).mpr (Or.inl hd), fun d hd => ?_, rfl, fun d hd hf => ?_, ?_⟩
  · refine objects_move ?_ ?_
    · rintro rfl
      rcases hd with hd | ⟨n, -, rfl⟩
      · simp [hd.not_new] at hnew
      · simp [Heap.inNewArea] at hnew
    · rintro rfl
      rcases hd with hd | ⟨n, hn, heq⟩
      · exact destination_not_fresh hinv promote hd
      · have := hinv.oldFree
        cases promote <;> simp [Heap.destination] at heq
        omega
  · cases promote with
    | true =>
      refine (mem_append.mp hd).resolve_right fun hlast => ?_
      exact destination_not_fresh hinv true (mem_singleton.mp hlast ▸ hf)
    | false => exact hd
  · cases promote <;> simp [Scavenger.move, Heap.moveNewSpaceObject]
    omega

lemma Wf.old_of_some (hwf : Wf h) {a : Address} (hsome : (h.objects a).isSome = true)
    (hnew : h.inNewArea a = false) :
    ∃ n < h.oldFree, a = .old n := by
  obtain ⟨o, ho⟩ := isSome_iff_exists.mp hsome
  cases a with
  | semi area k =>
    obtain rfl : area = !h.original := by
      cases area <;> cases hh : h.original <;> simp_all [Heap.inNewArea]
    simp [hwf.survivors k] at ho
  | old n => exact ⟨n, hwf.olds n o ho, rfl⟩

lemma visitPointer_progress (hwf : Wf h) (hinv : Inv h M P s i e) (hp : Visitable h M P s p) :
    Progress h M P i e s (s.visitPointer p).1 ∧ (s.visitPointer p).2 =
      adjust (s.visitPointer p).1 p ∧
      ∀ a, p = some a → h.inNewArea a = true → copyOf (s.visitPointer p).1 a ≠ none := by
  cases p with
  | none => exact ⟨Progress.refl hinv, rfl, by simp⟩
  | some a =>
    obtain ⟨hsome, hnew⟩ := hp a rfl
    have hin : s.heap.inNewArea a = h.inNewArea a := by
      cases a <;> simp [Heap.inNewArea, hinv.original]
    by_cases hn : h.inNewArea a = true
    · obtain ⟨hM, hP⟩ := hnew hn
      obtain ⟨o, ho⟩ : ∃ o, s.heap.objects a = some o := by
        have := hinv.kept a hn
        cases hs : s.heap.objects a with
        | none => simp [← this, hs] at hsome
        | some o => exact ⟨o, rfl⟩
      cases hf : o.forward with
      | some forward =>
        have hcopy : copyOf s a = some forward := by simp [copyOf, ho, hf]
        simp only [Scavenger.visitPointer, ho, hf]
        exact ⟨Progress.refl hinv, by simp [adjust, hcopy], by simp [hcopy]⟩
      | none =>
        have hnone : copyOf s a = none := by simp [copyOf, ho, hf]
        have hpromote : s.shouldPromote a = true ↔ P a := by
          rw [← hP hnone, Scavenger.shouldPromote, hinv.raw, decide_eq_true_eq]
        simp only [Scavenger.visitPointer, ho, hf, hin, hn, if_true]
        have hcopy : copyOf (s.move a o (s.shouldPromote a)) a =
            some (s.heap.destination (s.shouldPromote a)) := by
          rw [copyOf_move hinv hf hn, if_pos rfl]
        exact ⟨progress_move hinv ho hf hn hM hpromote, by simp [adjust, hcopy], by simp [hcopy]⟩
    · obtain ⟨n, hlt, rfl⟩ := hwf.old_of_some hsome (by simpa using hn)
      obtain ⟨o, ho, hf⟩ : ∃ o, s.heap.objects (.old n) = some o ∧ o.forward = none := by
        have holds := hinv.olds n hlt
        cases hs : s.heap.objects (.old n) with
        | none =>
          rw [hs, map_none] at holds
          simp [map_eq_none_iff.mp holds.symm] at hsome
        | some o =>
          obtain ⟨o', ho'⟩ := isSome_iff_exists.mp hsome
          rw [hs, ho'] at holds
          simp only [map_some, Option.some.injEq, Prod.mk.injEq] at holds
          exact ⟨o, rfl, holds.2⟩
      have hnone : copyOf s (.old n) = none := by simp [copyOf, ho, hf]
      have hfalse : s.heap.inNewArea (.old n) = false := rfl
      simp only [Scavenger.visitPointer, ho, hf, hfalse, Bool.false_eq_true, if_false]
      refine ⟨Progress.refl hinv, by simp [adjust, hnone], fun a ha hna => ?_⟩
      obtain rfl := Option.some.inj ha
      exact absurd hna (by simp [Heap.inNewArea])

lemma visitPointers_progress (hwf : Wf h) (hinv : Inv h M P s i e) {ps : List (Option Address)}
    (hps : ∀ p ∈ ps, Visitable h M P s p) :
    Progress h M P i e s (s.visitPointers ps).1 ∧ (s.visitPointers ps).2 =
      ps.map (adjust (s.visitPointers ps).1) ∧
      ∀ a, some a ∈ ps → h.inNewArea a = true → copyOf (s.visitPointers ps).1 a ≠ none := by
  induction ps generalizing s with
  | nil => exact ⟨Progress.refl hinv, rfl, by simp⟩
  | cons p ps ih =>
    obtain ⟨hfirst, hq, hmoved⟩ := visitPointer_progress hwf hinv (hps p (by simp))
    obtain ⟨hrest, hqs, hall⟩ := ih hfirst.inv fun q hq => hfirst.visitable (hps q (by simp [hq]))
    have hnew := fun a d hd => (hrest.inv.fresh a d hd).1
    refine ⟨hfirst.trans hrest, ?_, fun a ha hn => ?_⟩
    · change (s.visitPointer p).2 :: ((s.visitPointer p).1.visitPointers ps).2 = _
      rw [hq, hqs, ← hrest.extends_.adjust_eq hnew hmoved]
      rfl
    · rcases mem_cons.mp ha with ha | ha
      · exact hrest.extends_.ne_none (hmoved a ha.symm hn)
      · exact hall a ha hn

end Visit

section Iterate
variable {h : Heap D} {s t u : Scavenger D} {i : ℕ} {a d : Address} {o : Object D}
  {M P : Address → Prop}

structure Kept (h : Heap D) (s t : Scavenger D) : Prop where
  extends_ : Extends s t
  olds : ∀ n < h.oldFree, t.heap.objects (.old n) = s.heap.objects (.old n)
  level : t.promoteLevel = s.promoteLevel

lemma Kept.refl (s : Scavenger D) : Kept h s s := ⟨fun _ _ hd => hd, fun _ _ => rfl, rfl⟩

lemma Kept.trans (hst : Kept h s t) (htu : Kept h t u) : Kept h s u :=
  ⟨fun a d hd => htu.extends_ a d (hst.extends_ a d hd),
    fun n hn => (htu.olds n hn).trans (hst.olds n hn), htu.level.trans hst.level⟩

lemma onObject_self (h : Heap D) (d : Address) (f : Object D → Object D) :
    (h.onObject d f).objects d = (h.objects d).map f := by
  simp [Heap.onObject]

lemma onObject_ne (h : Heap D) (f : Object D → Object D) {a d : Address} (hne : a ≠ d) :
    (h.onObject d f).objects a = h.objects a := by
  simp [Heap.onObject, hne]

lemma onObject_ne_none {h : Heap D} {f : Object D → Object D} {a d : Address} :
    (h.onObject d f).objects a ≠ none ↔ h.objects a ≠ none := by
  by_cases hd : a = d
  · rw [hd, onObject_self]
    simp
  · rw [onObject_ne _ _ hd]

lemma copyOf_onObject (s : Scavenger D) (d : Address) {f : Object D → Object D}
    (hf : ∀ o, (f o).forward = o.forward) (b : Address) :
    copyOf { s with heap := s.heap.onObject d f } b = copyOf s b := by
  by_cases hb : b = d
  · rw [copyOf, copyOf, hb, onObject_self]
    cases s.heap.objects d <;> simp [hf]
  · rw [copyOf, onObject_ne _ _ hb, copyOf]

lemma adjust_congr (hsame : ∀ b, copyOf t b = copyOf s b) : adjust t = adjust s := by
  funext p
  simp [adjust, hsame]

lemma Fresh.congr {x : Address} (hf : Fresh h s x) (hold : s.heap.oldFree = t.heap.oldFree)
    (hsurvive : s.heap.surviveFree = t.heap.surviveFree) : Fresh h t x := by
  cases hf with
  | old n hn hlt => exact .old n hn (hold ▸ hlt)
  | survive k hk => exact .survive k (hsurvive ▸ hk)

lemma adjusted_congr (hsame : ∀ b, copyOf t b = copyOf s b) {fields : List (Option Address)}
    (hf : Adjusted h s o fields) : Adjusted h t o fields :=
  ⟨by rw [adjust_congr hsame]; exact hf.1, fun y hy hn => by rw [hsame]; exact hf.2 y hy hn⟩

/-- A change of one object outside the new area that leaves its header and its forwarding address
keeps everything but what is said of the copies. -/
lemma Inv.onObject (hinv : Inv h M P s i e) {f : Object D → Object D}
    (hf : ∀ o, (f o).header = o.header ∧ (f o).forward = o.forward)
    (hnew : h.inNewArea d = false) {e' : Option Address}
    (hcopies : ∀ a x, copyOf s a = some x → ∃ o c, h.objects a = some o ∧
      (s.heap.onObject d f).objects x = some c ∧ c.header = o.header ∧ c.forward = none ∧
      (Grey h s i e' x → c.fields = o.fields) ∧ (¬ Grey h s i e' x → Adjusted h s o c.fields)) :
    Inv h M P { s with heap := s.heap.onObject d f } i e' := by
  have hsame : ∀ b, copyOf { s with heap := s.heap.onObject d f } b = copyOf s b :=
    copyOf_onObject s d fun o => (hf o).2
  refine ⟨hinv.original, hinv.raw, fun b hb => ?_, fun n hn => ?_, hinv.oldFree, fun b x hx => ?_,
    fun x hx => ?_, fun b b' x hb hb' => ?_, fun b x hx => ?_, hinv.queue, hinv.nodup,
    fun b x hx => ?_, hinv.scanned, fun x hx => ?_⟩
  · rw [onObject_ne _ _ fun heq => by simp [heq, hnew] at hb]
    exact hinv.kept b hb
  · rw [← hinv.olds n hn]
    by_cases heq : Address.old n = d
    · rw [heq, onObject_self, Option.map_map]
      exact Option.map_congr fun o _ => Prod.ext (hf o).1 (hf o).2
    · rw [onObject_ne _ _ heq]
  · rw [hsame] at hx
    exact ⟨(hinv.fresh b x hx).1, (hinv.fresh b x hx).2.congr rfl rfl⟩
  · obtain ⟨b, hb⟩ := hinv.taken x (hx.congr rfl rfl)
    exact ⟨b, by rw [hsame, hb]⟩
  · rw [hsame] at hb hb'
    exact hinv.injective b b' x hb hb'
  · rw [hsame] at hx
    obtain ⟨o, c, ho, hc, hheader, hforward, hraw, hdone⟩ := hcopies b x hx
    exact ⟨o, c, ho, hc, hheader, hforward, hraw, fun hg => adjusted_congr hsame (hdone hg)⟩
  · rw [hsame] at hx
    exact hinv.members b x hx
  · exact (hinv.bounded x (onObject_ne_none.mp hx)).imp_right
      (Or.imp_left fun hf => hf.congr rfl rfl)

lemma Inv.setFields (hinv : Inv h M P u i (some d)) (hcopy : copyOf u a = some d)
    (ho : h.objects a = some o) (hqueue : d ∉ u.promoted)
    (hscan : ∀ k, i ≤ k → d ≠ .semi (!h.original) k) {fields : List (Option Address)}
    (hfields : Adjusted h u o fields) :
    Inv h M P { u with heap := u.heap.setFields d fields } i none ∧
      ∀ b, copyOf { u with heap := u.heap.setFields d fields } b = copyOf u b := by
  obtain ⟨o', c, ho', hc, hheader, hforward, -, -⟩ := hinv.copies a d hcopy
  obtain rfl : o = o' := Option.some.inj (ho.symm.trans ho')
  refine ⟨hinv.onObject ?_ (hinv.fresh a d hcopy).2.not_new fun b x hx => ?_,
    copyOf_onObject u d fun _ => rfl⟩
  · exact fun _ => ⟨rfl, rfl⟩
  by_cases hxd : x = d
  · obtain rfl := hinv.injective b a d (hxd ▸ hx) hcopy
    refine ⟨o, { c with fields := fields }, ho, ?_, hheader, hforward, fun hgrey => ?_,
      fun _ => hfields⟩
    · rw [hxd, onObject_self, hc]
      rfl
    · rcases hgrey with (hq | ⟨k, hk, heq⟩) | he
      · exact absurd (hxd ▸ hq) hqueue
      · exact absurd (hxd ▸ heq) (hscan k hk)
      · cases he
  · obtain ⟨o₁, c₁, ho₁, hc₁, hheader₁, hforward₁, hraw, hdone⟩ := hinv.copies b x hx
    have hgrey : Grey h u i none x ↔ Grey h u i (some d) x := by
      simp [Grey, Ne.symm hxd]
    refine ⟨o₁, c₁, ho₁, ?_, hheader₁, hforward₁, fun hg => hraw (hgrey.mp hg),
      fun hg => hdone fun hg' => hg (hgrey.mpr hg')⟩
    rw [onObject_ne _ _ hxd, hc₁]

lemma iterateObject_spec (hwf : Wf h) (hinv : Inv h M P s i (some d)) (hcopy : copyOf s a = some d)
    (ho : h.objects a = some o) (hqueue : d ∉ s.promoted)
    (hscan : ∀ k, i ≤ k → d ≠ .semi (!h.original) k)
    (hvisit : ∀ p ∈ o.fields, Visitable h M P s p) :
    Inv h M P (s.iterateObject d) i none ∧ Kept h s (s.iterateObject d) ∧
      (s.iterateObject d).promoted.length + s.heap.oldFree =
        s.promoted.length + (s.iterateObject d).heap.oldFree := by
  obtain ⟨o', c, ho', hc, -, -, hraw, -⟩ := hinv.copies a d hcopy
  obtain rfl : o = o' := Option.some.inj (ho.symm.trans ho')
  have hcfields : c.fields = o.fields := hraw (Or.inr rfl)
  obtain ⟨hprogress, hfields, hmoved⟩ := visitPointers_progress hwf hinv hvisit
  have heq : s.iterateObject d = { (s.visitPointers o.fields).1 with
      heap := (s.visitPointers o.fields).1.heap.setFields d (s.visitPointers o.fields).2 } := by
    simp only [Scavenger.iterateObject, hc, hcfields]
  have hfresh := (hinv.fresh a d hcopy).2
  obtain ⟨hinv', hsame⟩ := hprogress.inv.setFields (hprogress.extends_ a d hcopy) ho
    (fun hd => hqueue (hprogress.queued d hd hfresh)) hscan ⟨hfields, fun b hb hn => hmoved b hb hn⟩
  rw [heq]
  refine ⟨hinv', ⟨fun b x hx => ?_, fun n hn => ?_, hprogress.level⟩, hprogress.counts⟩
  · rw [hsame]
    exact hprogress.extends_ b x hx
  · have hne : Address.old n ≠ d := by
      rintro rfl
      cases hfresh
      omega
    exact (onObject_ne _ _ hne).trans (hprogress.frame _ (Or.inr ⟨n, hn, rfl⟩))

end Iterate

end Mai.LangScavengerSteps
