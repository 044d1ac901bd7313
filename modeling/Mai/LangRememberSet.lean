import Mathlib

/-! The remember set (`lang/garbage-collector.h`): buckets of records, sorted by address and then
newest first. -/
namespace Mai.LangRememberSet
open Function List Option

inductive Tag
  | record
  | deletion
  deriving DecidableEq

structure Node (A : Type*) where
  sequenceNumber : ℕ
  address : A
  tag : Tag

variable {A : Type*} [LinearOrder A]

def Node.ge (x key : Node A) : Bool :=
  key.address < x.address ∨ x.address = key.address ∧ x.sequenceNumber ≤ key.sequenceNumber

def insertNode (key : Node A) : List (Node A) → List (Node A)
  | [] => [key]
  | x :: xs => if x.ge key then key :: x :: xs else x :: insertNode key xs

def Before (x y : Node A) : Prop :=
  x.address < y.address ∨ x.address = y.address ∧ y.sequenceNumber < x.sequenceNumber

section Nodes
variable {key x : Node A} {xs : List (Node A)}

lemma mem_insertNode : x ∈ insertNode key xs ↔ x = key ∨ x ∈ xs := by
  induction xs with
  | nil => simp [insertNode]
  | cons y ys ih =>
    rw [insertNode]
    split_ifs
    · simp
    · simp only [mem_cons, ih]
      tauto

lemma Before.trans {y z : Node A} (h : Before x y) (h' : Before y z) : Before x z := by
  rcases h with h | ⟨h, hs⟩ <;> rcases h' with h' | ⟨h', hs'⟩
  · exact Or.inl (h.trans h')
  · exact Or.inl (h' ▸ h)
  · exact Or.inl (h ▸ h')
  · exact Or.inr ⟨h.trans h', hs'.trans hs⟩

lemma insertNode_sorted (h : xs.Pairwise Before)
    (hnew : ∀ y ∈ xs, y.sequenceNumber < key.sequenceNumber) :
    (insertNode key xs).Pairwise Before := by
  induction xs with
  | nil => simp [insertNode]
  | cons y ys ih =>
    obtain ⟨hy, hys⟩ := pairwise_cons.mp h
    have hlt := hnew y (by simp)
    rw [insertNode]
    split_ifs with hge
    · have hkey : Before key y := by
        rcases of_decide_eq_true hge with hlt' | ⟨heq, -⟩
        · exact Or.inl hlt'
        · exact Or.inr ⟨heq.symm, hlt⟩
      refine pairwise_cons.mpr ⟨fun z hz => ?_, h⟩
      rcases mem_cons.mp hz with rfl | hz
      · exact hkey
      · exact hkey.trans (hy z hz)
    · have hbefore : Before y key := by
        simp only [Node.ge, decide_eq_true_eq, not_or, not_lt, not_and, not_le] at hge
        rcases lt_or_eq_of_le hge.1 with hlt' | heq
        · exact Or.inl hlt'
        · exact absurd (hge.2 heq) (by omega)
      refine pairwise_cons.mpr ⟨fun z hz => ?_, ih hys fun z hz => hnew z (by simp [hz])⟩
      rcases mem_insertNode.mp hz with rfl | hz
      · exact hbefore
      · exact hy z hz

end Nodes

structure RememberSet (A : Type*) [LinearOrder A] (hash : A → ℕ) where
  bucketsShift : ℕ
  buckets : ℕ → List (Node A)
  recordSequence : ℕ
  sorted : ∀ i, (buckets i).Pairwise Before
  hashed : ∀ i, ∀ x ∈ buckets i, hash x.address % 2 ^ bucketsShift = i
  bounded : ∀ i, ∀ x ∈ buckets i, x.sequenceNumber < recordSequence

namespace RememberSet
variable {hash : A → ℕ}

def empty (bucketsShift : ℕ) : RememberSet A hash :=
  ⟨bucketsShift, fun _ => [], 0, by simp, by simp, by simp⟩

def bucket (r : RememberSet A hash) (address : A) : ℕ := hash address % 2 ^ r.bucketsShift

def insert (r : RememberSet A hash) (address : A) (tag : Tag) : RememberSet A hash where
  bucketsShift := r.bucketsShift
  buckets := update r.buckets (r.bucket address)
    (insertNode ⟨r.recordSequence, address, tag⟩ (r.buckets (r.bucket address)))
  recordSequence := r.recordSequence + 1
  sorted i := by
    by_cases hi : i = r.bucket address
    · subst hi
      rw [update_self]
      exact insertNode_sorted (r.sorted _) (r.bounded _)
    · rw [update_of_ne hi]
      exact r.sorted i
  hashed i x hx := by
    by_cases hi : i = r.bucket address
    · subst hi
      rw [update_self] at hx
      rcases mem_insertNode.mp hx with rfl | hx
      · rfl
      · exact r.hashed _ x hx
    · rw [update_of_ne hi] at hx
      exact r.hashed i x hx
  bounded i x hx := by
    by_cases hi : i = r.bucket address
    · subst hi
      rw [update_self] at hx
      rcases mem_insertNode.mp hx with rfl | hx
      · exact Nat.lt_succ_self _
      · exact (r.bounded _ x hx).trans (Nat.lt_succ_self _)
    · rw [update_of_ne hi] at hx
      exact (r.bounded i x hx).trans (Nat.lt_succ_self _)

def put (r : RememberSet A hash) (address : A) : RememberSet A hash := r.insert address .record

def delete (r : RememberSet A hash) (address : A) : RememberSet A hash := r.insert address .deletion

def nodes (r : RememberSet A hash) : List (Node A) :=
  (List.range (2 ^ r.bucketsShift)).flatMap r.buckets

def lookedAt (key : Option A) : List (Node A) → List A
  | [] => []
  | x :: xs =>
    if key = some x.address then lookedAt key xs
    else
      match x.tag with
      | .deletion => lookedAt (some x.address) xs
      | .record => x.address :: lookedAt (some x.address) xs

def recorded (r : RememberSet A hash) : List A := lookedAt none r.nodes

def latest (r : RememberSet A hash) (address : A) : Option Tag :=
  ((r.buckets (r.bucket address)).find? fun x => x.address = address).map Node.tag

section Latest
variable (r : RememberSet A hash) (address : A)

lemma find_insertNode_self (key : Node A) {xs : List (Node A)}
    (h : ∀ y ∈ xs, y.sequenceNumber < key.sequenceNumber) :
    (insertNode key xs).find? (fun x => x.address = key.address) = some key := by
  induction xs with
  | nil => simp [insertNode]
  | cons y ys ih =>
    rw [insertNode]
    split_ifs with hge
    · simp
    · have hne : ¬ y.address = key.address :=
        fun heq => hge (decide_eq_true (Or.inr ⟨heq, (h y (by simp)).le⟩))
      simp [hne, ih fun z hz => h z (by simp [hz])]

lemma find_insertNode_ne {key : Node A} {xs : List (Node A)} {a : A} (ha : a ≠ key.address) :
    (insertNode key xs).find? (fun x => x.address = a) = xs.find? fun x => x.address = a := by
  have hkey : ¬ key.address = a := fun h => ha h.symm
  induction xs with
  | nil => simp [insertNode, hkey]
  | cons y ys ih =>
    rw [insertNode]
    split_ifs
    · rw [find?_cons_of_neg (by simpa using hkey)]
    · rw [find?_cons, find?_cons, ih]

lemma latest_insert (tag : Tag) (a : A) :
    (r.insert address tag).latest a = if a = address then some tag else r.latest a := by
  have hbuckets : (r.insert address tag).buckets = update r.buckets (r.bucket address)
    (insertNode ⟨r.recordSequence, address, tag⟩ (r.buckets (r.bucket address))) := rfl
  have hbucket : (r.insert address tag).bucket a = r.bucket a := rfl
  rw [latest, hbuckets, hbucket]
  split_ifs with ha
  · subst ha
    have hfind := find_insertNode_self ⟨r.recordSequence, a, tag⟩ (r.bounded (r.bucket a))
    rw [update_self, hfind]
    rfl
  · by_cases hb : r.bucket a = r.bucket address
    · rw [hb, update_self, find_insertNode_ne ha, latest, hb]
    · rw [update_of_ne hb, latest]

@[simp] lemma latest_put (a : A) :
    (r.put address).latest a = if a = address then some .record else r.latest a :=
  r.latest_insert address .record a

@[simp] lemma latest_delete (a : A) :
    (r.delete address).latest a = if a = address then some .deletion else r.latest a :=
  r.latest_insert address .deletion a

@[simp] lemma latest_empty
    (bucketsShift : ℕ) : (empty bucketsShift : RememberSet A hash).latest address = none := rfl

end Latest

section LookedAt
variable {key : Option A} {xs ys : List (Node A)} {a : A}

lemma lookedAt_fresh (h : ∀ y ∈ ys, key ≠ some y.address) : lookedAt key ys = lookedAt none ys := by
  cases ys with
  | nil => rfl
  | cons y ys => simp [lookedAt, h y (by simp)]

lemma lookedAt_append (hkey : ∀ y ∈ ys, key ≠ some y.address)
    (hdisjoint : ∀ x ∈ xs, ∀ y ∈ ys, x.address ≠ y.address) :
    lookedAt key (xs ++ ys) = lookedAt key xs ++ lookedAt none ys := by
  induction xs generalizing key with
  | nil => exact lookedAt_fresh hkey
  | cons x xs ih =>
    have hxs : ∀ z ∈ xs, ∀ y ∈ ys, z.address ≠ y.address := fun z hz => hdisjoint z (by simp [hz])
    have hx : ∀ y ∈ ys, some x.address ≠ some y.address :=
      fun y hy => by simpa using hdisjoint x (by simp) y hy
    rw [cons_append, lookedAt, lookedAt]
    split_ifs
    · exact ih hkey hxs
    · cases x.tag with
      | deletion => exact ih hx hxs
      | record => simp only [ih hx hxs, cons_append]

lemma mem_lookedAt (hsorted : xs.Pairwise Before)
    (hkey : ∀ k, key = some k → ∀ y ∈ xs, k ≤ y.address) :
    a ∈ lookedAt key xs ↔ key ≠ some a ∧ (xs.find? fun x => x.address = a).map Node.tag =
      some .record := by
  induction xs generalizing key with
  | nil => simp [lookedAt]
  | cons x xs ih =>
    obtain ⟨hx, hxs⟩ := pairwise_cons.mp hsorted
    have hle : ∀ y ∈ xs, x.address ≤ y.address :=
      fun y hy => (hx y hy).elim le_of_lt fun h => h.1.le
    have hnext : a ∈ lookedAt (some x.address) xs ↔ some x.address ≠ some a ∧
        (xs.find? fun x => x.address = a).map Node.tag = some .record := ih hxs (by simpa using hle)
    rw [lookedAt]
    split_ifs with hk
    · rw [ih hxs fun k hk y hy => hkey k hk y (by simp [hy])]
      by_cases ha : x.address = a
      · simp [hk, ha]
      · simp [ha]
    · by_cases ha : x.address = a
      · have hka : key ≠ some a := ha ▸ hk
        rw [ha] at hnext
        cases htag : x.tag <;> simp [hnext, ha, htag, hka]
      · have hka : (xs.find? fun x => x.address = a).map Node.tag = some .record →
            key ≠ some a := by
          intro hfind hka
          obtain ⟨y, hy, -⟩ := map_eq_some_iff.mp hfind
          have hya : y.address = a := by simpa using find?_some hy
          have hxa := hkey a hka x (by simp)
          exact ha (le_antisymm (hya ▸ hle y (mem_of_find?_eq_some hy)) hxa)
        have ha' : ¬ a = x.address := fun h => ha h.symm
        rw [find?_cons_of_neg (by simpa using ha)]
        cases htag : x.tag <;> simp only [mem_cons, hnext, ha', false_or, ne_eq, Option.some.injEq,
          ha, not_false_eq_true, true_and] <;> exact ⟨fun h => ⟨hka h, h⟩, And.right⟩

lemma lookedAt_nodup (hsorted : xs.Pairwise Before)
    (hkey : ∀ k, key = some k → ∀ y ∈ xs, k ≤ y.address) :
    (lookedAt key xs).Nodup := by
  induction xs generalizing key with
  | nil => exact nodup_nil
  | cons x xs ih =>
    obtain ⟨hx, hxs⟩ := pairwise_cons.mp hsorted
    have hle : ∀ k, some x.address = some k → ∀ y ∈ xs, k ≤ y.address := by
      rintro k hk y hy
      obtain rfl := Option.some.inj hk
      exact (hx y hy).elim le_of_lt fun h => h.1.le
    rw [lookedAt]
    split_ifs
    · exact ih hxs fun k hk y hy => hkey k hk y (by simp [hy])
    · cases x.tag with
      | deletion => exact ih hxs hle
      | record =>
        refine nodup_cons.mpr ⟨fun hmem => ?_, ih hxs hle⟩
        exact ((mem_lookedAt hxs hle).mp hmem).1 rfl

end LookedAt

section Recorded
variable (r : RememberSet A hash) {a : A}

lemma lookedAt_buckets {is : List ℕ} (h : is.Nodup) :
    lookedAt none (is.flatMap r.buckets) = is.flatMap fun i => lookedAt none (r.buckets i) := by
  induction is with
  | nil => rfl
  | cons i is ih =>
    obtain ⟨hi, his⟩ := nodup_cons.mp h
    rw [flatMap_cons, flatMap_cons, lookedAt_append (by simp), ih his]
    intro x hx y hy heq
    obtain ⟨j, hj, hy⟩ := mem_flatMap.mp hy
    have hij : i = j := by rw [← r.hashed i x hx, ← r.hashed j y hy, heq]
    exact hi (hij ▸ hj)

theorem mem_recorded : a ∈ r.recorded ↔ r.latest a = some .record := by
  rw [recorded, nodes, r.lookedAt_buckets nodup_range, mem_flatMap]
  constructor
  · rintro ⟨i, -, ha⟩
    obtain ⟨-, hfind⟩ := (mem_lookedAt (r.sorted i) (by simp)).mp ha
    obtain ⟨x, hx, -⟩ := map_eq_some_iff.mp hfind
    have hxa : x.address = a := by simpa using find?_some hx
    have hi : r.bucket a = i := by
      rw [bucket, ← hxa]
      exact r.hashed i x (mem_of_find?_eq_some hx)
    rwa [latest, hi]
  · intro h
    refine ⟨r.bucket a, mem_range.mpr (Nat.mod_lt _ (by positivity)), ?_⟩
    exact (mem_lookedAt (r.sorted _) (by simp)).mpr ⟨by simp, h⟩

theorem recorded_nodup : r.recorded.Nodup := by
  rw [recorded, nodes, r.lookedAt_buckets nodup_range]
  refine nodup_flatMap.mpr ⟨fun i _ => lookedAt_nodup (r.sorted i) (by simp), ?_⟩
  refine List.Nodup.pairwise_of_forall_ne nodup_range fun i _ j _ hij a hi hj => ?_
  have hbucket : ∀ {k}, a ∈ lookedAt none (r.buckets k) → r.bucket a = k := by
    intro k hk
    obtain ⟨x, hx, -⟩ := map_eq_some_iff.mp ((mem_lookedAt (r.sorted k) (by simp)).mp hk).2
    have hxa : x.address = a := by simpa using find?_some hx
    rw [bucket, ← hxa]
    exact r.hashed k x (mem_of_find?_eq_some hx)
  exact hij ((hbucket hi).symm.trans (hbucket hj))

end Recorded

end RememberSet

end Mai.LangRememberSet
