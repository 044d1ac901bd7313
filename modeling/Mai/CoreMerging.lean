import Mai.OrderedIterator

/-! The iterator of `core/merging.cc`, which merges any number of ordered iterators and can be
turned round at any time. The wrapper of a child only remembers what the child says. -/
namespace Mai.CoreMerging
open ListCursor OrderedIterator RunInvariant Function Option

structure MergingIterator (α : Type*) where
  children : List (Cursor α)
  current : Option ℕ
  direction : Direction

variable {α κ : Type*} [LinearOrder κ]

def select (better : α → α → Bool) (best : Option (ℕ × α)) (child : Cursor α × ℕ) :
    Option (ℕ × α) :=
  match child.1.current, best with
  | none, _ => best
  | some a, none => some (child.2, a)
  | some a, some (i, b) => if better a b then some (child.2, a) else some (i, b)

def findSmallest (key : α → κ) (children : List (Cursor α)) : Option ℕ :=
  (children.zipIdx.foldl (select fun a b => key a < key b) none).map Prod.fst

def findLargest (key : α → κ) (children : List (Cursor α)) : Option ℕ :=
  (children.zipIdx.reverse.foldl (select fun a b => key b < key a) none).map Prod.fst

def entryAt (children : List (Cursor α)) (current : Option ℕ) : Option α :=
  current.bind fun i => children[i]?.bind Cursor.current

def others (children : List (Cursor α)) (current : ℕ) (f : Cursor α → Cursor α) : List (Cursor α) :=
  children.mapIdx fun i child => if i = current then child else f child

def seekBehind (key : α → κ) (k : κ) (child : Cursor α) : Cursor α :=
  let child := child.seek fun b => k ≤ key b
  match child.current with
  | some b => if k = key b then child.next else child
  | none => child

def seekBefore (key : α → κ) (k : κ) (child : Cursor α) : Cursor α :=
  let child := child.seek fun b => k ≤ key b
  if child.valid then child.prev else child.seekToLast

namespace MergingIterator

def new (children : List (Cursor α)) : MergingIterator α := ⟨children, none, .forward⟩

def entry (it : MergingIterator α) : Option α := entryAt it.children it.current

variable (key : α → κ)

def seekToFirst (it : MergingIterator α) : MergingIterator α :=
  let children := it.children.map Cursor.seekToFirst
  ⟨children, findSmallest key children, .forward⟩

def seekToLast (it : MergingIterator α) : MergingIterator α :=
  let children := it.children.map Cursor.seekToLast
  ⟨children, findLargest key children, .reserve⟩

def seek (it : MergingIterator α) (target : κ) : MergingIterator α :=
  let children := it.children.map fun child => child.seek fun b => target ≤ key b
  ⟨children, findSmallest key children, .forward⟩

/-- `Next` of a valid iterator whose current child is the one given and stands on the entry
given. -/
def next (it : MergingIterator α) (current : ℕ) (a : α) : MergingIterator α :=
  let children := if it.direction = .forward then it.children
    else others it.children current (seekBehind key (key a))
  let children := children.modify current Cursor.next
  ⟨children, findSmallest key children, .forward⟩

def prev (it : MergingIterator α) (current : ℕ) (a : α) : MergingIterator α :=
  let children := if it.direction = .reserve then it.children
    else others it.children current (seekBefore key (key a))
  let children := children.modify current Cursor.prev
  ⟨children, findLargest key children, .reserve⟩

def call (it : MergingIterator α) : Call κ → Option (MergingIterator α)
  | .seekToFirst => some (it.seekToFirst key)
  | .seekToLast => some (it.seekToLast key)
  | .seek target => some (it.seek key target)
  | .next => it.current.bind fun i => it.entry.map (it.next key i)
  | .prev => it.current.bind fun i => it.entry.map (it.prev key i)

end MergingIterator

section Select
variable {key : α → κ}

def Best (key : α → κ) (seen : List (Cursor α × ℕ)) : Option (ℕ × α) → Prop
  | none => ∀ x ∈ seen, x.1.current = none
  | some (i, a) => (∃ c, (c, i) ∈ seen ∧ c.current = some a) ∧ ∀ x ∈ seen, ∀ b,
      x.1.current = some b → key a ≤ key b

lemma Best.select {seen : List (Cursor α × ℕ)} {best : Option (ℕ × α)} (h : Best key seen best)
    (x : Cursor α × ℕ) : Best key (seen ++ [x]) (select (fun a b => key a < key b) best x) := by
  have hmem : ∀ {y}, y ∈ seen ++ [x] ↔ y ∈ seen ∨ y = x := by simp
  rcases hx : x.1.current with _ | a <;> rcases best with _ | ⟨i, b⟩ <;>
    simp only [CoreMerging.select, hx]
  · intro y hy
    obtain hy | rfl := hmem.mp hy
    · exact h y hy
    · exact hx
  · obtain ⟨⟨c, hc, hcb⟩, hle⟩ := h
    refine ⟨⟨c, hmem.mpr (Or.inl hc), hcb⟩, fun y hy d hd => ?_⟩
    obtain hy | rfl := hmem.mp hy
    · exact hle y hy d hd
    · simp [hx] at hd
  · refine ⟨⟨x.1, hmem.mpr (Or.inr rfl), hx⟩, fun y hy d hd => ?_⟩
    obtain hy | rfl := hmem.mp hy
    · simp [h y hy] at hd
    · rw [Option.some.inj (hx.symm.trans hd)]
  · obtain ⟨⟨c, hc, hcb⟩, hle⟩ := h
    simp only [decide_eq_true_iff]
    split_ifs with hlt
    · refine ⟨⟨x.1, hmem.mpr (Or.inr rfl), hx⟩, fun y hy d hd => ?_⟩
      obtain hy | rfl := hmem.mp hy
      · exact hlt.le.trans (hle y hy d hd)
      · rw [Option.some.inj (hx.symm.trans hd)]
    · refine ⟨⟨c, hmem.mpr (Or.inl hc), hcb⟩, fun y hy d hd => ?_⟩
      obtain hy | rfl := hmem.mp hy
      · exact hle y hy d hd
      · rw [← Option.some.inj (hx.symm.trans hd)]
        exact not_lt.mp hlt

lemma best_foldl (key : α → κ) (l : List (Cursor α × ℕ)) :
    Best key l (l.foldl (select fun a b => key a < key b) none) := by
  induction l using List.reverseRecOn with
  | nil => exact fun x hx => by simp at hx
  | append_singleton l x ih =>
    rw [List.foldl_append]
    exact ih.select x

def Chosen (key : α → κ) (children : List (Cursor α)) : Option ℕ → Prop
  | none => ∀ c ∈ children, c.current = none
  | some i => ∃ c a, children[i]? = some c ∧ c.current = some a ∧ ∀ d ∈ children, ∀ b,
      d.current = some b → key a ≤ key b

variable {children : List (Cursor α)}

lemma chosen_of_best {l : List (Cursor α × ℕ)} {best : Option (ℕ × α)}
    (hl : ∀ x, x ∈ l ↔ x ∈ children.zipIdx) (h : Best key l best) :
    Chosen key children (best.map Prod.fst) := by
  have hseen : ∀ c ∈ children, ∃ i, (c, i) ∈ l := by
    intro c hc
    obtain ⟨i, hi⟩ := List.mem_iff_getElem?.mp hc
    exact ⟨i, (hl _).mpr (List.mem_zipIdx_iff_getElem?.mpr hi)⟩
  rcases best with _ | ⟨i, a⟩
  · intro c hc
    obtain ⟨i, hi⟩ := hseen c hc
    exact h _ hi
  · obtain ⟨⟨c, hc, hca⟩, hle⟩ := h
    refine ⟨c, a, List.mem_zipIdx_iff_getElem?.mp ((hl _).mp hc), hca, fun d hd b hb => ?_⟩
    obtain ⟨j, hj⟩ := hseen d hd
    exact hle _ hj b hb

lemma chosen_findSmallest (children : List (Cursor α)) :
    Chosen key children (findSmallest key children) :=
  chosen_of_best (fun _ => Iff.rfl) (best_foldl key _)

lemma chosen_findLargest (children : List (Cursor α)) :
    Chosen (fun a => OrderDual.toDual (key a)) children (findLargest key children) :=
  chosen_of_best (fun _ => List.mem_reverse) (best_foldl (fun a => OrderDual.toDual (key a)) _)

end Select

section Order
variable {ρ : Type*} [LinearOrder ρ]

structure Separated (key : α → κ) (rank : α → ρ) (lists : List (List α)) : Prop where
  mono : ∀ a b, rank a ≤ rank b → key a ≤ key b
  apart : ∀ (i j : ℕ) l l' a b, lists[i]? = some l → lists[j]? = some l' → i ≠ j → a ∈ l → b ∈ l' →
    key a ≠ key b

variable {key : α → κ} {rank : α → ρ} {lists : List (List α)} {p : α → Prop}

lemma Separated.dual (h : Separated key rank lists) :
    Separated (fun a => OrderDual.toDual (key a)) (fun a => OrderDual.toDual (rank a)) lists :=
  ⟨fun a b hab => h.mono b a hab, fun i j l l' a b hl hl' hij ha hb heq =>
    h.apart i j l l' a b hl hl' hij ha hb (OrderDual.toDual_inj.mp heq)⟩

lemma Separated.lt_iff (h : Separated key rank lists) {i j : ℕ} {l l' : List α} {a b : α}
    (hl : lists[i]? = some l) (hl' : lists[j]? = some l') (hij : i ≠ j) (ha : a ∈ l) (hb : b ∈ l') :
    (key a ≤ key b ↔ rank a < rank b) ∧ (rank a ≤ rank b ↔ rank a < rank b) := by
  have hne := h.apart i j l l' a b hl hl' hij ha hb
  have hlt : key a ≤ key b → rank a < rank b := by
    intro hle
    by_contra hnot
    exact hne (le_antisymm hle (h.mono b a (not_lt.mp hnot)))
  exact ⟨⟨hlt, fun hr => h.mono a b hr.le⟩, fun hr => hlt (h.mono a b hr), le_of_lt⟩

structure Positioned (rank : α → ρ) (lists : List (List α)) (p : α → Prop)
    (children : List (Cursor α)) : Prop where
  items : children.map Cursor.items = lists
  least : ∀ c ∈ children, Least rank c.items p c.current

variable {children : List (Cursor α)} {o : Option ℕ}

lemma getElem?_lists (h : children.map Cursor.items = lists) {i : ℕ} {c : Cursor α}
    (hc : children[i]? = some c) :
    lists[i]? = some c.items := by
  rw [← h, List.getElem?_map, hc]
  rfl

lemma Positioned.chosen (h : Positioned rank lists p children) (hsep : Separated key rank lists)
    {items : List α} (hitems : ∀ a, a ∈ items ↔ a ∈ lists.flatten) (ho : Chosen key children o) :
    Least rank items p (entryAt children o) := by
  have hchild : ∀ b ∈ items, ∃ (j : ℕ) (d : Cursor α), children[j]? = some d ∧ b ∈ d.items := by
    intro b hb
    obtain ⟨l, hl, hbl⟩ := List.mem_flatten.mp ((hitems b).mp hb)
    rw [← h.items] at hl
    obtain ⟨d, hd, rfl⟩ := List.mem_map.mp hl
    obtain ⟨j, hj⟩ := List.mem_iff_getElem?.mp hd
    exact ⟨j, d, hj, hbl⟩
  rcases o with _ | i
  · intro b hb hpb
    obtain ⟨j, d, hj, hbd⟩ := hchild b hb
    have hd := List.mem_of_getElem? hj
    have hleast := h.least d hd
    rw [ho d hd] at hleast
    exact hleast b hbd hpb
  · obtain ⟨c, a, hi, hca, hle⟩ := ho
    have hentry : entryAt children (some i) = some a := by simp [entryAt, hi, hca]
    have hc := List.mem_of_getElem? hi
    obtain ⟨hac, hpa, hleast⟩ : a ∈ c.items ∧ p a ∧ ∀ b ∈ c.items, p b → rank a ≤ rank b := by
      have hleast := h.least c hc
      rwa [hca] at hleast
    rw [hentry]
    refine ⟨(hitems a).mpr (List.mem_flatten.mpr ⟨c.items, ?_, hac⟩), hpa, fun b hb hpb => ?_⟩
    · rw [← h.items]
      exact List.mem_map.mpr ⟨c, hc, rfl⟩
    · obtain ⟨j, d, hj, hbd⟩ := hchild b hb
      by_cases hij : i = j
      · rw [← hij, hi] at hj
        rw [← Option.some.inj hj] at hbd
        exact hleast b hbd hpb
      · have hd := List.mem_of_getElem? hj
        rcases hcur : d.current with _ | e
        · have hnone := h.least d hd
          rw [hcur] at hnone
          exact absurd hpb (hnone b hbd)
        · have hsome := h.least d hd
          rw [hcur] at hsome
          obtain ⟨hed, -, hmin⟩ := hsome
          have hae := (hsep.lt_iff (getElem?_lists h.items hi) (getElem?_lists h.items hj) hij hac
            hed).1.mp
            (hle d hd e hcur)
          exact hae.le.trans (hmin b hbd hpb)

lemma Positioned.weaken (h : Positioned rank lists p children) {items : List α}
    (hitems : ∀ a, a ∈ items ↔ a ∈ lists.flatten) (hup : ∀ b c, p b → rank b ≤ rank c → p c) {a : α}
    (ha : Least rank items p (some a)) :
    Positioned rank lists (fun b => rank a ≤ rank b) children := by
  refine ⟨h.items, fun c hc => (h.least c hc).congr fun b hb =>
    ⟨fun hpb => ha.2.2 b ?_ hpb, hup a b ha.2.1⟩⟩
  refine (hitems b).mpr (List.mem_flatten.mpr ⟨c.items, ?_, hb⟩)
  rw [← h.items]
  exact List.mem_map.mpr ⟨c, hc, rfl⟩

lemma positioned_map (hitems : children.map Cursor.items = lists) (f : Cursor α → Cursor α)
    (hf : ∀ c ∈ children, (f c).items = c.items ∧ Least rank c.items p (f c).current) :
    Positioned rank lists p (children.map f) := by
  refine ⟨?_, fun d hd => ?_⟩
  · rw [← hitems, List.map_map]
    exact List.map_congr_left fun c hc => (hf c hc).1
  · obtain ⟨c, hc, rfl⟩ := List.mem_map.mp hd
    obtain ⟨hsame, hleast⟩ := hf c hc
    rwa [hsame]

lemma positioned_others (hitems : children.map Cursor.items = lists) (i : ℕ)
    (f advance : Cursor α → Cursor α) (hcurrent : ∀ c, children[i]? = some c → (advance c).items =
      c.items ∧ Least rank c.items p (advance c).current)
    (hother : ∀ (j : ℕ) c, children[j]? = some c → j ≠ i → (f c).items = c.items ∧
      Least rank c.items p (f c).current) :
    Positioned rank lists p ((others children i f).modify i advance) := by
  have hget : ∀ (j : ℕ) d, ((others children i f).modify i advance)[j]? = some d →
      ∃ c, children[j]? = some c ∧ d.items = c.items ∧ Least rank c.items p d.current := by
    intro j d hd
    rw [others, List.getElem?_modify, List.getElem?_mapIdx] at hd
    rcases hc : children[j]? with _ | c
    · simp [hc] at hd
    · by_cases hij : i = j
      · subst hij
        obtain rfl : advance c = d := by simpa [hc] using hd
        exact ⟨c, rfl, hcurrent c hc⟩
      · obtain rfl : f c = d := by simpa [hc, hij, Ne.symm hij] using hd
        exact ⟨c, rfl, hother j c hc (Ne.symm hij)⟩
  refine ⟨?_, fun d hd => ?_⟩
  · rw [← hitems]
    refine List.ext_getElem? fun j => ?_
    rw [List.getElem?_map, List.getElem?_map]
    rcases hd : ((others children i f).modify i advance)[j]? with _ | d
    · have hlen : children.length ≤ j := by simpa [others] using hd
      simp [hlen]
    · obtain ⟨c, hc, hsame, -⟩ := hget j d hd
      simp [hc, hsame]
  · obtain ⟨j, hj⟩ := List.mem_iff_getElem?.mp hd
    obtain ⟨c, -, hsame, hleast⟩ := hget j d hj
    rwa [hsame]

lemma others_id (children : List (Cursor α)) (i : ℕ) : others children i id = children := by
  refine List.ext_getElem? fun j => ?_
  rw [others, List.getElem?_mapIdx]
  cases children[j]? <;> simp

end Order

section Calls
variable {ρ : Type*} [LinearOrder ρ] {key : α → κ} {rank : α → ρ} {lists : List (List α)}
  {items : List α}
  {it : MergingIterator α} {c : Cursor α} {children : List (Cursor α)} {a : α}

structure Over (rank : α → ρ) (lists : List (List α)) (it : MergingIterator α) : Prop where
  items : it.children.map Cursor.items = lists
  forward : it.direction = .forward → ∀ a, it.entry = some a →
    Positioned rank lists (fun b => rank a ≤ rank b) it.children
  reserve : it.direction = .reserve → ∀ a, it.entry = some a →
    Positioned (fun b => OrderDual.toDual (rank b)) lists (fun b => rank b ≤ rank a) it.children

structure Merges (key : α → κ) (rank : α → ρ) (lists : List (List α)) (items : List α) : Prop where
  separated : Separated key rank lists
  sorted : ∀ l ∈ lists, Ascending rank l
  items : ∀ a, a ∈ items ↔ a ∈ lists.flatten

lemma Merges.smallest (h : Merges key rank lists items) {p : α → Prop}
    (hpos : Positioned rank lists p children) (hup : ∀ b c, p b → rank b ≤ rank c → p c) :
    Over rank lists ⟨children, findSmallest key children, .forward⟩ ∧
      Least rank items p (entryAt children (findSmallest key children)) := by
  have hleast := hpos.chosen h.separated h.items (chosen_findSmallest children)
  refine ⟨⟨hpos.items, fun _ a ha => hpos.weaken h.items hup ?_, fun hno => by cases hno⟩, hleast⟩
  rwa [← ha]

lemma Merges.largest (h : Merges key rank lists items) {p : α → Prop}
    (hpos : Positioned (fun b => OrderDual.toDual (rank b)) lists p children)
    (hdown : ∀ b c, p b → rank c ≤ rank b → p c) :
    Over rank lists ⟨children, findLargest key children, .reserve⟩ ∧
      Greatest rank items p (entryAt children (findLargest key children)) := by
  have hgreatest := hpos.chosen h.separated.dual h.items (chosen_findLargest children)
  refine ⟨⟨hpos.items, fun hno => (by cases hno), fun _ a ha => hpos.weaken h.items hdown ?_⟩,
    hgreatest⟩
  rwa [← ha]

lemma Merges.ascending (h : Merges key rank lists items)
    (hitems : children.map Cursor.items = lists) (hc : c ∈ children) : Ascending rank c.items :=
  h.sorted _ (hitems ▸ List.mem_map.mpr ⟨c, hc, rfl⟩)

lemma seekToFirst_spec (h : Merges key rank lists items) (hit : Over rank lists it) :
    Over rank lists (it.seekToFirst key) ∧
      Least rank items (fun _ => True) (it.seekToFirst key).entry :=
  h.smallest (positioned_map hit.items _ fun _ hc =>
    ⟨rfl, least_seekToFirst (h.ascending hit.items hc)⟩)
    fun _ _ _ _ => trivial

lemma seekToLast_spec (h : Merges key rank lists items) (hit : Over rank lists it) :
    Over rank lists (it.seekToLast key) ∧
      Greatest rank items (fun _ => True) (it.seekToLast key).entry :=
  h.largest (positioned_map hit.items _ fun _ hc =>
    ⟨rfl, greatest_seekToLast (h.ascending hit.items hc)⟩)
    fun _ _ _ _ => trivial

lemma seek_spec (h : Merges key rank lists items) (hit : Over rank lists it) (target : κ) :
    Over rank lists (it.seek key target) ∧
      Least rank items (fun b => target ≤ key b) (it.seek key target).entry :=
  h.smallest (positioned_map hit.items _ fun _ hc =>
      ⟨rfl, least_seekKey h.separated.mono (h.ascending hit.items hc) target⟩)
    fun b c hb hbc => hb.trans (h.separated.mono b c hbc)

lemma items_seekBehind (k : κ) (c : Cursor α) : (seekBehind key k c).items = c.items := by
  rw [seekBehind]
  split
  · split_ifs <;> rfl
  · rfl

lemma items_seekBefore (k : κ) (c : Cursor α) : (seekBefore key k c).items = c.items := by
  rw [seekBefore]
  split_ifs <;> rfl

lemma least_seekBehind (h : Merges key rank lists items) (hc : Ascending rank c.items)
    (hne : ∀ b ∈ c.items, (key a ≤ key b ↔ rank a < rank b) ∧ key a ≠ key b) :
    Least rank c.items (fun b => rank a < rank b) (seekBehind key (key a) c).current := by
  have hseek := (least_seekKey h.separated.mono hc (key a)).congr fun b hb => (hne b hb).1
  rw [seekBehind]
  split
  · next b hb =>
    have hmem : b ∈ (c.seek fun b => key a ≤ key b).items := Cursor.mem_of_current hb
    rw [if_neg (hne b hmem).2]
    exact hseek
  · exact hseek

lemma greatest_seekBefore (h : Merges key rank lists items) (hc : Ascending rank c.items)
    (hne : ∀ b ∈ c.items, (key a ≤ key b ↔ rank a < rank b) ∧ (rank b ≤ rank a ↔ rank b < rank a)) :
    Greatest rank c.items (fun b => rank b < rank a) (seekBefore key (key a) c).current := by
  have hseek := (least_seekKey h.separated.mono hc (key a)).congr fun b hb => (hne b hb).1
  rw [seekBefore]
  rcases hcur : (c.seek fun b => key a ≤ key b).current with _ | b
  · rw [if_neg (by simp [Cursor.current_eq_none.mp hcur])]
    rw [hcur] at hseek
    refine (greatest_seekToLast (c := c.seek fun b => key a ≤ key b) hc).congr fun b hb => ?_
    exact ⟨fun _ => (hne b hb).2.mp (not_lt.mp (hseek b hb)), fun _ => trivial⟩
  · rw [if_pos (Cursor.valid_of_current hcur)]
    rw [hcur] at hseek
    refine (greatest_prev (c := c.seek fun b => key a ≤ key b) hc hcur).congr fun d hd => ?_
    refine ⟨fun hdb => (hne d hd).2.mp (not_lt.mp fun had => ?_), fun hda => hda.trans hseek.2.1⟩
    exact hdb.not_ge (hseek.2.2 d hd had)

lemma entry_eq_some (ha : it.entry = some a) :
    ∃ i c, it.current = some i ∧ it.children[i]? = some c ∧ c.current = some a := by
  obtain ⟨i, hi, ha⟩ := bind_eq_some_iff.mp ha
  obtain ⟨c, hc, ha⟩ := bind_eq_some_iff.mp ha
  exact ⟨i, c, hi, hc, ha⟩

lemma next_spec (h : Merges key rank lists items) (hit : Over rank lists it) {i : ℕ}
    (hc : it.children[i]? = some c) (hca : c.current = some a) (ha : it.entry = some a) :
    Over rank lists (it.next key i a) ∧
      Least rank items (fun b => rank a < rank b) (it.next key i a).entry := by
  have hac := Cursor.mem_of_current hca
  have hlist := getElem?_lists hit.items hc
  have hcurrent : ∀ d, it.children[i]? = some d →
      d.next.items = d.items ∧ Least rank d.items (fun b => rank a < rank b) d.next.current := by
    intro d hd
    obtain rfl := Option.some.inj (hc.symm.trans hd)
    exact ⟨rfl, least_next (h.ascending hit.items (List.mem_of_getElem? hc)) hca⟩
  have hup : ∀ b c, rank a < rank b → rank b ≤ rank c → rank a < rank c := fun b c => lt_of_lt_of_le
  unfold MergingIterator.next
  split_ifs with hdir
  · refine h.smallest ?_ hup
    rw [← others_id it.children i]
    refine positioned_others hit.items i id Cursor.next hcurrent fun j d hd hji => ⟨rfl, ?_⟩
    refine ((hit.forward hdir a ha).least d (List.mem_of_getElem? hd)).congr fun b hb => ?_
    exact (h.separated.lt_iff hlist (getElem?_lists hit.items hd) hji.symm hac hb).2
  · refine h.smallest (positioned_others hit.items i _ Cursor.next hcurrent fun j d hd hji => ?_)
      hup
    have hdlist := getElem?_lists hit.items hd
    refine ⟨items_seekBehind _ d,
      least_seekBehind h (h.ascending hit.items (List.mem_of_getElem? hd)) fun b hb => ?_⟩
    exact ⟨(h.separated.lt_iff hlist hdlist hji.symm hac hb).1,
      h.separated.apart i j _ _ a b hlist hdlist hji.symm hac hb⟩

lemma prev_spec (h : Merges key rank lists items) (hit : Over rank lists it) {i : ℕ}
    (hc : it.children[i]? = some c) (hca : c.current = some a) (ha : it.entry = some a) :
    Over rank lists (it.prev key i a) ∧
      Greatest rank items (fun b => rank b < rank a) (it.prev key i a).entry := by
  have hac := Cursor.mem_of_current hca
  have hlist := getElem?_lists hit.items hc
  have hcurrent : ∀ d, it.children[i]? = some d →
      d.prev.items = d.items ∧ Greatest rank d.items (fun b => rank b < rank a) d.prev.current := by
    intro d hd
    obtain rfl := Option.some.inj (hc.symm.trans hd)
    exact ⟨rfl, greatest_prev (h.ascending hit.items (List.mem_of_getElem? hc)) hca⟩
  have hdown : ∀ b c, rank b < rank a → rank c ≤ rank b → rank c < rank a :=
    fun b c hb hcb => lt_of_le_of_lt hcb hb
  unfold MergingIterator.prev
  split_ifs with hdir
  · refine h.largest ?_ hdown
    rw [← others_id it.children i]
    refine positioned_others hit.items i id Cursor.prev hcurrent fun j d hd hji => ⟨rfl, ?_⟩
    refine ((hit.reserve hdir a ha).least d (List.mem_of_getElem? hd)).congr fun b hb => ?_
    exact (h.separated.lt_iff (getElem?_lists hit.items hd) hlist hji hb hac).2
  · refine h.largest (positioned_others hit.items i _ Cursor.prev hcurrent fun j d hd hji => ?_)
      hdown
    have hdlist := getElem?_lists hit.items hd
    refine ⟨items_seekBefore _ d,
      greatest_seekBefore h (h.ascending hit.items (List.mem_of_getElem? hd)) fun b hb => ?_⟩
    exact ⟨(h.separated.lt_iff hlist hdlist hji.symm hac hb).1,
      (h.separated.lt_iff hdlist hlist hji hb hac).2⟩

lemma Merges.implements (h : Merges key rank lists items) :
    Implements key rank items (MergingIterator.call key) MergingIterator.entry (Over rank lists)
      (Over rank lists) where
  weaken _ hi := hi
  seekToFirst i hi := ⟨_, rfl, seekToFirst_spec h hi⟩
  seekToLast i hi := ⟨_, rfl, seekToLast_spec h hi⟩
  seek i target hi := ⟨_, rfl, seek_spec h hi target⟩
  next it a hit ha := by
    obtain ⟨i, c, hi, hc, hca⟩ := entry_eq_some ha
    exact ⟨_, by simp [MergingIterator.call, hi, ha], next_spec h hit hc hca ha⟩
  prev it a hit ha := by
    obtain ⟨i, c, hi, hc, hca⟩ := entry_eq_some ha
    exact ⟨_, by simp [MergingIterator.call, hi, ha], prev_spec h hit hc hca ha⟩
  refused it hit ha := by simp [MergingIterator.call, ha]

end Calls

section Map
variable {β : Type*} (f : α → β) (key : β → κ) {g' : Cursor β → Cursor β} {g : Cursor α → Cursor α}

def MergingIterator.map (it : MergingIterator α) : MergingIterator β :=
  ⟨it.children.map (Cursor.map f), it.current, it.direction⟩

lemma foldl_select_map (better : β → β → Bool) (l : List (Cursor α × ℕ)) (best : Option (ℕ × α)) :
    (l.map (Prod.map (Cursor.map f) id)).foldl (select better) (best.map (Prod.map id f)) =
      (l.foldl (select fun a b => better (f a) (f b)) best).map (Prod.map id f) := by
  induction l generalizing best with
  | nil => rfl
  | cons x l ih =>
    rw [List.map_cons, List.foldl_cons, List.foldl_cons, ← ih]
    congr 1
    rcases hx : x.1.current with _ | a <;> rcases best with _ | ⟨i, b⟩ <;> simp [select, hx]
    split_ifs <;> rfl

lemma findSmallest_map (children : List (Cursor α)) :
    findSmallest key (children.map (Cursor.map f)) =
      findSmallest (fun a => key (f a)) children := by
  have hfold := foldl_select_map f (fun a b => key a < key b) children.zipIdx none
  rw [findSmallest, findSmallest, List.zipIdx_map]
  rw [map_none] at hfold
  rw [hfold, Option.map_map]
  rfl

lemma findLargest_map (children : List (Cursor α)) :
    findLargest key (children.map (Cursor.map f)) = findLargest (fun a => key (f a)) children := by
  have hfold := foldl_select_map f (fun a b => key b < key a) children.zipIdx.reverse none
  rw [findLargest, findLargest, List.zipIdx_map, ← List.map_reverse]
  rw [map_none] at hfold
  rw [hfold, Option.map_map]
  rfl

lemma entry_map (it : MergingIterator α) : (it.map f).entry = it.entry.map f := by
  rcases hi : it.current with _ | i
  · simp [MergingIterator.entry, MergingIterator.map, entryAt, hi]
  · rcases hc : it.children[i]? with _ | c <;> simp [MergingIterator.entry, MergingIterator.map,
      entryAt, hi, hc]

lemma seekBehind_map (k : κ) (c : Cursor α) :
    seekBehind key k (c.map f) = (seekBehind (fun a => key (f a)) k c).map f := by
  simp only [seekBehind, Cursor.seek_map, Cursor.current_map]
  rcases hc : (c.seek fun a => k ≤ key (f a)).current with _ | b
  · rfl
  · simp only [map_some]
    split_ifs <;> rfl

lemma seekBefore_map (k : κ) (c : Cursor α) :
    seekBefore key k (c.map f) = (seekBefore (fun a => key (f a)) k c).map f := by
  simp only [seekBefore, Cursor.seek_map, Cursor.valid_map]
  split_ifs <;> simp

lemma others_map (hg : ∀ c, g' (c.map f) = (g c).map f)
    (children : List (Cursor α)) (i : ℕ) :
    others (children.map (Cursor.map f)) i g' = (others children i g).map (Cursor.map f) := by
  refine List.ext_getElem? fun j => ?_
  rw [others, others, List.getElem?_mapIdx, List.getElem?_map, List.getElem?_map,
    List.getElem?_mapIdx]
  cases children[j]? with
  | none => rfl
  | some c =>
    simp only [map_some, Option.some.injEq]
    split_ifs
    · rfl
    · exact hg c

lemma modify_map (hg : ∀ c, g' (c.map f) = (g c).map f)
    (children : List (Cursor α)) (i : ℕ) :
    (children.map (Cursor.map f)).modify i g' = (children.modify i g).map (Cursor.map f) := by
  refine List.ext_getElem? fun j => ?_
  rw [List.getElem?_modify, List.getElem?_map, List.getElem?_map, List.getElem?_modify]
  cases children[j]? with
  | none => rfl
  | some c =>
    by_cases hij : i = j
    · simp [hij, hg]
    · simp [hij]

lemma turned_map (hg : ∀ c, g' (c.map f) = (g c).map f)
    (it : MergingIterator α) (i : ℕ) (direction : Direction) :
    (if (it.map f).direction = direction then (it.map f).children
      else others (it.map f).children i g') =
      (if it.direction = direction then it.children
        else others it.children i g).map (Cursor.map f) := by
  have hsame : (it.map f).direction = it.direction := rfl
  rw [hsame]
  split_ifs
  · rfl
  · exact others_map f hg it.children i

lemma next_map (it : MergingIterator α) (i : ℕ) (x : α) :
    (it.map f).next key i (f x) = (it.next (fun a => key (f a)) i x).map f := by
  unfold MergingIterator.next
  simp only
  rw [turned_map f (seekBehind_map f key _), modify_map f (fun _ => Cursor.next_map),
    findSmallest_map]
  rfl

lemma prev_map (it : MergingIterator α) (i : ℕ) (x : α) :
    (it.map f).prev key i (f x) = (it.prev (fun a => key (f a)) i x).map f := by
  unfold MergingIterator.prev
  simp only
  rw [turned_map f (seekBefore_map f key _), modify_map f (fun _ => Cursor.prev_map),
    findLargest_map]
  rfl

lemma call_map (it : MergingIterator α) (a : Call κ) :
    (it.map f).call key a = (it.call (fun x => key (f x)) a).map (MergingIterator.map f) := by
  cases a with
  | seekToFirst =>
    simp [MergingIterator.call, MergingIterator.seekToFirst, MergingIterator.map,
      ← findSmallest_map, comp_def]
  | seekToLast =>
    simp [MergingIterator.call, MergingIterator.seekToLast, MergingIterator.map, ← findLargest_map,
      comp_def]
  | seek target =>
    simp [MergingIterator.call, MergingIterator.seek, MergingIterator.map, ← findSmallest_map,
      comp_def]
  | next =>
    simp only [MergingIterator.call, entry_map]
    rcases hi : it.current with _ | i
    · simp [MergingIterator.map, hi]
    · rcases it.entry with _ | x
      · simp
      · simp only [MergingIterator.map, hi, map_some, bind_some, Option.some.injEq]
        exact next_map f key it i x
  | prev =>
    simp only [MergingIterator.call, entry_map]
    rcases hi : it.current with _ | i
    · simp [MergingIterator.map, hi]
    · rcases it.entry with _ | x
      · simp
      · simp only [MergingIterator.map, hi, map_some, bind_some, Option.some.injEq]
        exact prev_map f key it i x

end Map

section Ranks
variable {key : α → κ} {l : List α}

def union (key : α → κ) (lists : List (List α)) : List α :=
  lists.flatten.mergeSort fun a b => key a ≤ key b

def rank (key : α → κ) (x : α × ℕ) : Lex (κ × ℕ) := toLex (key x.1, x.2)

lemma rank_mono (x y : α × ℕ) (h : rank key x ≤ rank key y) : key x.1 ≤ key y.1 :=
  (Prod.Lex.toLex_le_toLex.mp h).elim le_of_lt fun h => h.1.le

lemma ascending_zipIdx (h : l.Pairwise fun a b => key a ≤ key b) :
    Ascending (rank key) l.zipIdx := by
  refine List.pairwise_iff_getElem.mpr fun i j hi hj hij => ?_
  simp only [List.length_zipIdx] at hi hj
  simp only [List.getElem_zipIdx, rank, Prod.Lex.toLex_lt_toLex, zero_add]
  exact (List.pairwise_iff_getElem.mp h i j hi hj hij).lt_or_eq.imp_right fun heq => ⟨heq, hij⟩

lemma pair_asymm (hnodup : l.Nodup) {a b : α} (hab : [a, b].Sublist l) : ¬ [b, a].Sublist l := by
  classical
  have hindex : l.Pairwise fun x y => l.idxOf x < l.idxOf y := by
    refine List.pairwise_iff_getElem.mpr fun i j hi hj hij => ?_
    rwa [hnodup.idxOf_getElem, hnodup.idxOf_getElem]
  intro hba
  exact lt_asymm (List.pairwise_iff_forall_sublist.mp hindex hab)
    (List.pairwise_iff_forall_sublist.mp hindex hba)

lemma Ascending.pair_sublist {ρ : Type*} [LinearOrder ρ] {r : α → ρ} (h : Ascending r l) {a b : α}
    (ha : a ∈ l) (hb : b ∈ l) (hab : r a < r b) : [a, b].Sublist l := by
  obtain ⟨s, t, rfl⟩ := List.append_of_mem ha
  obtain ⟨-, -, hst⟩ := List.pairwise_append.mp h
  have hbt : b ∈ t := by
    obtain hb | hb := List.mem_append.mp hb
    · exact absurd (hst b hb a (by simp)) hab.not_gt
    · obtain rfl | hb := List.mem_cons.mp hb
      · exact absurd hab (lt_irrefl _)
      · exact hb
  exact (List.Sublist.cons_cons a (List.singleton_sublist.mpr hbt)).trans
    (List.sublist_append_right s (a :: t))

lemma nodup_flatten {lists : List (List (α × ℕ))} (hsorted : ∀ l ∈ lists, Ascending (rank key) l)
    (hapart : ∀ (i j : ℕ) l l' x y, lists[i]? = some l → lists[j]? = some l' → i ≠ j → x ∈ l →
      y ∈ l' →
      key x.1 ≠ key y.1) : lists.flatten.Nodup := by
  refine List.nodup_flatten.mpr ⟨fun l hl => (hsorted l hl).imp fun {a b} hab heq => ?_, ?_⟩
  · rw [heq] at hab
    exact lt_irrefl _ hab
  · refine List.pairwise_iff_getElem.mpr fun i j hi hj hij x hx hy => ?_
    exact hapart i j _ _ x x (List.getElem?_eq_getElem hi) (List.getElem?_eq_getElem hj) hij.ne hx
      hy rfl

lemma ascending_union {lists : List (List (α × ℕ))} (hsorted : ∀ l ∈ lists, Ascending (rank key) l)
    (hapart : ∀ (i j : ℕ) l l' x y, lists[i]? = some l → lists[j]? = some l' → i ≠ j → x ∈ l →
      y ∈ l' →
      key x.1 ≠ key y.1) : Ascending (rank key) (union (fun x => key x.1) lists) := by
  have hperm : (union (fun x => key x.1) lists).Perm lists.flatten := List.mergeSort_perm _ _
  have htrans : ∀ x y z : α × ℕ, decide (key x.1 ≤ key y.1) = true → decide (key y.1 ≤ key z.1) =
      true →
      decide (key x.1 ≤ key z.1) = true := by
    simp only [decide_eq_true_iff]
    exact fun x y z => le_trans
  have htotal : ∀ x y : α × ℕ, (decide (key x.1 ≤ key y.1) || decide (key y.1 ≤ key x.1)) =
      true := by
    simp only [Bool.or_eq_true, decide_eq_true_iff]
    exact fun x y => le_total _ _
  have hnodup := nodup_flatten hsorted hapart
  have hkeys := List.pairwise_mergeSort htrans htotal lists.flatten
  refine List.pairwise_iff_forall_sublist.mpr fun {x y} hxy => ?_
  have hle : key x.1 ≤ key y.1 := of_decide_eq_true (List.pairwise_iff_forall_sublist.mp hkeys hxy)
  refine Prod.Lex.toLex_lt_toLex.mpr (hle.lt_or_eq.imp_right fun heq => ⟨heq, ?_⟩)
  have hmem : ∀ z, z ∈ [x, y] → ∃ (i : ℕ) (l : List (α × ℕ)), lists[i]? = some l ∧ z ∈ l := by
    intro z hz
    obtain ⟨l, hl, hzl⟩ := List.mem_flatten.mp (hperm.mem_iff.mp (hxy.subset hz))
    obtain ⟨i, hi⟩ := List.mem_iff_getElem?.mp hl
    exact ⟨i, l, hi, hzl⟩
  obtain ⟨i, l, hi, hxl⟩ := hmem x (by simp)
  obtain ⟨j, l', hj, hyl⟩ := hmem y (by simp)
  by_cases hij : i = j
  · rw [hij, hj] at hi
    obtain rfl := Option.some.inj hi
    have hl := List.mem_of_getElem? hj
    by_contra hnot
    have hasymm := pair_asymm (hperm.nodup_iff.mpr hnodup) hxy
    obtain hlt | hxy' := (not_lt.mp hnot).lt_or_eq
    · have hrank : rank key y < rank key x := Prod.Lex.toLex_lt_toLex.mpr (Or.inr ⟨heq.symm, hlt⟩)
      have hsub := (Ascending.pair_sublist (hsorted _ hl) hyl hxl hrank).trans
        (List.sublist_flatten_of_mem hl)
      exact hasymm (List.pair_sublist_mergeSort htrans htotal (decide_eq_true heq.ge) hsub)
    · have hequal : rank key y = rank key x := congrArg toLex (Prod.ext heq.symm hxy')
      obtain rfl := (hsorted _ hl).inj hyl hxl hequal
      exact hasymm hxy
  · exact absurd heq (hapart i j l l' x y hi hj hij hxl hyl)

def withPlaces (c : Cursor α) : Cursor (α × ℕ) := ⟨c.items.zipIdx, c.index⟩

lemma map_withPlaces (c : Cursor α) : (withPlaces c).map Prod.fst = c := by
    simp [withPlaces, Cursor.map]

lemma union_withPlaces (key : α → κ) (children : List (Cursor α)) :
    (union (fun x => key x.1) ((children.map withPlaces).map Cursor.items)).map Prod.fst =
      union key (children.map Cursor.items) := by
  have hflat : ((children.map withPlaces).map Cursor.items).flatten.map Prod.fst =
      (children.map Cursor.items).flatten := by
    simp [withPlaces, List.map_flatten, comp_def]
  rw [union, union, ← hflat]
  exact List.map_mergeSort fun _ _ _ _ => rfl

lemma merges_withPlaces {children : List (Cursor α)}
    (hsorted : ∀ c ∈ children, c.items.Pairwise fun a b => key a ≤ key b)
    (hapart : children.Pairwise fun c d => ∀ a ∈ c.items, ∀ b ∈ d.items, key a ≠ key b) :
    let lists := (children.map withPlaces).map Cursor.items
    Merges (fun x => key x.1) (rank key) lists (union (fun x => key x.1) lists) ∧
      Ascending (rank key) (union (fun x => key x.1) lists) := by
  intro lists
  have hlists : ∀ {i : ℕ} {l : List (α × ℕ)}, lists[i]? = some l → ∃ c, children[i]? = some c ∧
      l = c.items.zipIdx := by
    intro i l hl
    rcases hc : children[i]? with _ | c
    · simp [lists, hc] at hl
    · simp only [lists, withPlaces, List.getElem?_map, hc, map_some, Option.some.injEq] at hl
      exact ⟨c, rfl, hl.symm⟩
  have hasc : ∀ l ∈ lists, Ascending (rank key) l := by
    intro l hl
    obtain ⟨i, hi⟩ := List.mem_iff_getElem?.mp hl
    obtain ⟨c, hc, rfl⟩ := hlists hi
    exact ascending_zipIdx (hsorted c (List.mem_of_getElem? hc))
  have hkeys : ∀ (i j : ℕ) l l' x y, lists[i]? = some l → lists[j]? = some l' → i ≠ j → x ∈ l →
      y ∈ l' →
      key x.1 ≠ key y.1 := by
    intro i j l l' x y hl hl' hij hx hy
    obtain ⟨c, hc, rfl⟩ := hlists hl
    obtain ⟨d, hd, rfl⟩ := hlists hl'
    obtain ⟨hi, rfl⟩ := List.getElem?_eq_some_iff.mp hc
    obtain ⟨hj, rfl⟩ := List.getElem?_eq_some_iff.mp hd
    have hx := List.fst_mem_of_mem_zipIdx hx
    have hy := List.fst_mem_of_mem_zipIdx hy
    obtain hlt | hlt := hij.lt_or_gt
    · exact List.pairwise_iff_getElem.mp hapart i j hi hj hlt x.1 hx y.1 hy
    · exact (List.pairwise_iff_getElem.mp hapart j i hj hi hlt y.1 hy x.1 hx).symm
  exact ⟨⟨⟨rank_mono, hkeys⟩, hasc, fun x => (List.mergeSort_perm _ _).mem_iff⟩,
    ascending_union hasc hkeys⟩

lemma over_new {ρ : Type*} [LinearOrder ρ] (r : α → ρ) (children : List (Cursor α)) :
    Over r (children.map Cursor.items) (.new children) :=
  ⟨rfl, fun _ _ ha => (by cases ha), fun hno => (by cases hno)⟩

/-- After any calls that respect `Valid()` the merging iterator shows the same entry as a cursor
over the sorted union of its children. -/
theorem mergingIterator_refines_cursor (key : α → κ) (children : List (Cursor α))
    (hsorted : ∀ c ∈ children, c.items.Pairwise fun a b => key a ≤ key b)
    (hapart : children.Pairwise fun c d => ∀ a ∈ c.items, ∀ b ∈ d.items, key a ≠ key b)
    (calls : List (Call κ)) :
    (run (MergingIterator.call key) (.new children) calls).map MergingIterator.entry =
      (run (cursorCall key) (.new (union key (children.map Cursor.items))) calls).map
        Cursor.current := by
  obtain ⟨hmerges, hasc⟩ := merges_withPlaces hsorted hapart
  have hrefines := hmerges.implements.refines rank_mono hasc
    (over_new (rank key) (children.map withPlaces))
    (c := .new (union (fun x => key x.1) ((children.map withPlaces).map Cursor.items))) rfl (by
      simp [MergingIterator.new, MergingIterator.entry, entryAt, Cursor.new, Cursor.current]) calls
  have hchildren : (MergingIterator.new (children.map withPlaces)).map Prod.fst =
      .new children := by
    simp [MergingIterator.map, MergingIterator.new, map_withPlaces, comp_def]
  have hunion : (Cursor.new
      (union (fun x => key x.1) ((children.map withPlaces).map Cursor.items))).map Prod.fst =
      .new (union key (children.map Cursor.items)) := by
    rw [← union_withPlaces key children]
    simp [Cursor.map, Cursor.new]
  rw [← hchildren, ← hunion, run_map (call_map Prod.fst key), run_map (cursorCall_map Prod.fst key),
    Option.map_map, Option.map_map]
  have hfst := congrArg (Option.map (Option.map Prod.fst)) hrefines
  rw [Option.map_map, Option.map_map] at hfst
  convert hfst using 2
  · exact funext fun it => entry_map Prod.fst it
  · exact funext fun c => Cursor.current_map

theorem mergingIterator_turnsBack :
    let children : List (Cursor (ℕ × ℕ)) :=
  [.new [(1, 10), (4, 40)], .new [], .new [(2, 20), (3, 30)]]
    (∀ c ∈ children, c.items.Pairwise fun a b => a.1 ≤ b.1) ∧
      (children.Pairwise fun c d => ∀ a ∈ c.items, ∀ b ∈ d.items, a.1 ≠ b.1) ∧
      (run (cursorCall Prod.fst) (.new (union Prod.fst (children.map Cursor.items)))
        [.seek 3, .prev, .prev, .next, .next]).map
        Cursor.current = some (some (3, 30)) := by
  intro children
  have hsorted : ∀ c ∈ children, c.items.Pairwise fun a b => a.1 ≤ b.1 := by decide
  have hapart : children.Pairwise fun c d => ∀ a ∈ c.items, ∀ b ∈ d.items, a.1 ≠ b.1 := by decide
  refine ⟨hsorted, hapart,
    (mergingIterator_refines_cursor Prod.fst children hsorted hapart _).symm.trans ?_⟩
  decide +kernel

end Ranks

end Mai.CoreMerging
