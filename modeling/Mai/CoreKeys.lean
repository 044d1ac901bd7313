import Mai.ByteCodec
import Mai.VersionedEntries

/-! Internal keys and the entries of tables (`core/key-boundle.h`,
`core/internal-key-comparator.cc`). User keys are compared by the family's comparator,
here the linear order of the key type (for byte strings the lexicographic order, which is
`BytewiseComparator::Compare`); an internal key adds a tag. -/
namespace Mai.CoreKeys
open ByteCodec VersionedEntries List

abbrev Bytes := List UInt8

instance byteOrder : LinearOrder UInt8 where
  le_refl := UInt8.le_refl
  le_trans _ _ _ := UInt8.le_trans
  le_antisymm _ _ := UInt8.le_antisymm
  le_total := UInt8.le_total
  lt_iff_le_not_ge a b := by simp only [UInt8.lt_iff_toNat_lt, UInt8.le_iff_toNat_le]; omega
  toDecidableLE := inferInstance
  toDecidableEq := inferInstance
  toDecidableLT := inferInstance

inductive Flag
  | value
  | deletion
  | valueForSeek
  deriving DecidableEq, Repr

structure Tag where
  sequenceNumber : ℕ
  flag : Flag
  deriving DecidableEq, Repr

def kMaxSequenceNumber : ℕ := 0x00ffffffffffffff

/-- A user key with its tag, the result of `KeyBoundle::ParseTaggedKey`. -/
structure InternalKey (K : Type*) where
  userKey : K
  tag : Tag
  deriving DecidableEq, Repr

structure Entry (K : Type*) where
  key : InternalKey K
  value : Bytes
  deriving DecidableEq, Repr

/-- `Error` of `mai/error.h`. The last two cases are no results of the code: they stand for the use
of a family pointer that is null and of a version pointer that was never set. -/
inductive Error
  | corruption (message : String)
  | notFound (message : String)
  | ioError (message : String)
  | eof (message : String)
  | timeout (message : String)
  | busy (message : String)
  | tryAgain (message : String)
  | nullColumnFamily (id : ℕ)
  | unsetVersion
  deriving DecidableEq, Repr

def Error.isEof : Error → Bool
  | .eof _ => true
  | _ => false

lemma bind_eq_ok {ε : Type*} {α β : Type _} {x : Except ε α} {f : α → Except ε β} {b : β} :
    (x >>= f) = .ok b ↔ ∃ a, x = .ok a ∧ f a = .ok b := by
  cases x <;> simp [bind, Except.bind]

section
variable {K : Type*}

def makeKey (userKey : K) (version : ℕ) (flag : Flag) : InternalKey K := ⟨userKey, version, flag⟩

def Entry.userKey (e : Entry K) : K := e.key.userKey
def Entry.sequenceNumber (e : Entry K) : ℕ := e.key.tag.sequenceNumber
def Entry.flag (e : Entry K) : Flag := e.key.tag.flag

def entryStamp : Stamp (Entry K) K := ⟨Entry.userKey, Entry.sequenceNumber⟩

@[simp] lemma entryStamp_key (e : Entry K) : entryStamp.key e = e.userKey := rfl
@[simp] lemma entryStamp_seq (e : Entry K) : entryStamp.seq e = e.sequenceNumber := rfl

def answer : Option (Entry K) → Option Bytes
  | none => none
  | some e => if e.flag = .deletion then none else some e.value

end

variable {K : Type*} [LinearOrder K] {a b : InternalKey K}

/-- `InternalKeyComparator::Compare`: user keys ascending, sequence numbers descending. -/
def InternalKey.compare (a b : InternalKey K) : Ordering :=
  match cmp a.userKey b.userKey with
  | .lt => .lt
  | .gt => .gt
  | .eq =>
    if a.tag.sequenceNumber < b.tag.sequenceNumber then .gt
    else if b.tag.sequenceNumber < a.tag.sequenceNumber then .lt
    else .eq

lemma InternalKey.compare_eq_lt : a.compare b = .lt ↔
    a.userKey < b.userKey ∨ a.userKey = b.userKey ∧ b.tag.sequenceNumber <
      a.tag.sequenceNumber := by
  unfold InternalKey.compare
  rcases lt_trichotomy a.userKey b.userKey with h | h | h
  · simp [cmp, cmpUsing, h]
  · simp only [h, cmp_self_eq_eq, lt_self_iff_false, true_and, false_or]
    split_ifs <;> simp <;> omega
  · simp [cmp, cmpUsing, h, h.not_gt, h.ne']

lemma InternalKey.compare_eq_gt : a.compare b = .gt ↔ b.compare a = .lt := by
  rw [compare_eq_lt]
  unfold InternalKey.compare
  rcases lt_trichotomy a.userKey b.userKey with h | h | h
  · simp [cmp, cmpUsing, h, h.not_gt, h.ne']
  · simp only [h, cmp_self_eq_eq, lt_self_iff_false, true_and, false_or]
    split_ifs <;> simp <;> omega
  · simp [cmp, cmpUsing, h, h.not_gt]

lemma InternalKey.compare_ne_lt : a.compare b ≠ .lt ↔
    b.userKey < a.userKey ∨ a.userKey = b.userKey ∧ a.tag.sequenceNumber ≤
      b.tag.sequenceNumber := by
  rw [Ne, compare_eq_lt, not_or, not_lt, not_and, not_lt]
  constructor
  · rintro ⟨h, hs⟩
    rcases h.lt_or_eq with h | h
    · exact Or.inl h
    · exact Or.inr ⟨h.symm, hs h.symm⟩
  · rintro (h | ⟨h, hs⟩)
    · exact ⟨h.le, fun he => absurd he h.ne'⟩
    · exact ⟨h.ge, fun _ => hs⟩

instance : Std.TransCmp (InternalKey.compare (K := K)) where
  eq_swap {a b} := by
    have hlt := InternalKey.compare_eq_gt (a := a) (b := b)
    have hgt := InternalKey.compare_eq_gt (a := b) (b := a)
    cases hab : a.compare b <;> cases hba : b.compare a <;> simp_all
  isLE_trans {a b c} hab hbc := by
    have hle {x y : InternalKey K} : (x.compare y).isLE = true ↔ y.compare x ≠ .lt := by
      rw [Ne, ← InternalKey.compare_eq_gt]
      cases x.compare y <;> simp
    rw [hle, InternalKey.compare_ne_lt] at hab hbc ⊢
    rcases hab with hab | ⟨hab, hs⟩ <;> rcases hbc with hbc | ⟨hbc, hs'⟩
    · exact .inl (hab.trans hbc)
    · exact .inl (hbc ▸ hab)
    · exact .inl (hab ▸ hbc)
    · exact .inr ⟨hbc.trans hab, hs'.trans hs⟩

def Entry.Before (a b : Entry K) : Prop := a.key.compare b.key = .lt

instance : DecidableRel (Entry.Before (K := K)) :=
  fun a b => inferInstanceAs (Decidable (a.key.compare b.key = .lt))

lemma Entry.before_iff {a b : Entry K} : a.Before b ↔
    a.userKey < b.userKey ∨ a.userKey = b.userKey ∧ b.sequenceNumber < a.sequenceNumber :=
  InternalKey.compare_eq_lt

lemma Entry.Before.trans {a b c : Entry K} (h : a.Before b) (g : b.Before c) : a.Before c := by
  rw [before_iff] at *
  rcases h with h | ⟨h, hs⟩ <;> rcases g with g | ⟨g, gs⟩
  · exact Or.inl (h.trans g)
  · exact Or.inl (g ▸ h)
  · exact Or.inl (h ▸ g)
  · exact Or.inr ⟨h.trans g, gs.trans hs⟩

lemma Entry.Before.irrefl (a : Entry K) : ¬ a.Before a := by
  simp [before_iff]

instance : IsTrans (Entry K) Entry.Before := ⟨fun _ _ _ => Entry.Before.trans⟩

def OrderedEntries (l : List (Entry K)) : Prop := l.Pairwise fun a b => ¬ b.Before a

def SortedEntries (l : List (Entry K)) : Prop := l.Pairwise Entry.Before

instance (l : List (Entry K)) : Decidable (OrderedEntries l) :=
  inferInstanceAs (Decidable (l.Pairwise fun a b => ¬ b.Before a))

instance (l : List (Entry K)) : Decidable (SortedEntries l) :=
  inferInstanceAs (Decidable (l.Pairwise Entry.Before))

lemma Entry.not_before_iff {a b : Entry K} : ¬ b.Before a ↔
    a.userKey < b.userKey ∨ a.userKey = b.userKey ∧ b.sequenceNumber ≤ a.sequenceNumber := by
  rw [before_iff, not_or, not_lt, not_and, not_lt]
  constructor
  · rintro ⟨h, hs⟩
    rcases h.lt_or_eq with h | h
    · exact Or.inl h
    · exact Or.inr ⟨h, hs h.symm⟩
  · rintro (h | ⟨h, hs⟩)
    · exact ⟨h.le, fun he => absurd he h.ne'⟩
    · exact ⟨h.le, fun _ => hs⟩

def readAt (l : List (Entry K)) (k : K) (s : ℕ) : Option Bytes := answer (entryStamp.newest l k s)

def IsNewest (l : List (Entry K)) (s : ℕ) (e : Entry K) : Prop :=
  entryStamp.newest l e.userKey s = some e

instance (l : List (Entry K)) (s : ℕ) (e : Entry K) : Decidable (IsNewest l s e) :=
  inferInstanceAs (Decidable (entryStamp.newest l e.userKey s = some e))

/-- The first entry at or after the target (`FindGreaterOrEqual` of the skip list, and the
seek of a table's iterator). -/
def seek (l : List (Entry K)) (target : InternalKey K) : Option (Entry K) :=
  l.find? fun e => e.key.compare target ≠ .lt

def seekEntry (l : List (Entry K)) (key : K) (version : ℕ) : Option (Entry K) :=
  (seek l (makeKey key version .valueForSeek)).filter fun e => e.userKey = key

/-- A lookup by seek: the entry if its user key is the one asked for, else not found with the text
for a seek past the end or for another key. -/
def seekOrError (pastEnd otherKey : String) (l : List (Entry K)) (ikey : InternalKey K) :
    Except Error (Entry K) :=
  match seek l ikey with
  | none => .error (.notFound pastEnd)
  | some e => if e.userKey = ikey.userKey then .ok e else .error (.notFound otherKey)

lemma not_before_seekKey {e : Entry K} {k : K} {s : ℕ} :
    e.key.compare (makeKey k s .valueForSeek) ≠ .lt ↔
      k < e.userKey ∨ e.userKey = k ∧ e.sequenceNumber ≤ s :=
  InternalKey.compare_ne_lt

theorem seekEntry_eq_newest {l : List (Entry K)} (h : OrderedEntries l)
    (hd : entryStamp.Distinct (· ∈ l)) (k : K) (s : ℕ) :
    seekEntry l k s = entryStamp.newest l k s := by
  induction l with
  | nil => rfl
  | cons a l ih =>
    obtain ⟨hhead, htail⟩ := pairwise_cons.mp h
    have ih := ih htail fun x y hx hy => hd x y (by simp [hx]) (by simp [hy])
    by_cases ha : a.key.compare (makeKey k s .valueForSeek) ≠ .lt
    · have hseek : seek (a :: l) (makeKey k s .valueForSeek) = some a := by
        simp [seek, ha]
      rw [seekEntry, hseek]
      rcases not_before_seekKey.mp ha with hk | ⟨hk, hs⟩
      · rw [Option.filter_some, if_neg (by simp [hk.ne'])]
        refine (Stamp.newest_eq_none.mpr fun b hb hbk => ?_).symm
        rcases mem_cons.mp hb with rfl | hb
        · exact absurd hbk hk.ne'
        · rcases Entry.not_before_iff.mp (hhead b hb) with hab | ⟨hab, _⟩
          · exact absurd hbk (hk.trans hab).ne'
          · exact absurd (hab.trans hbk) hk.ne'
      · rw [Option.filter_some, if_pos (by simp [hk])]
        refine (Stamp.newest_eq_some hd (by simp) hk hs fun b hb hbk _ => ?_).symm
        rcases mem_cons.mp hb with rfl | hb
        · exact le_rfl
        · rcases Entry.not_before_iff.mp (hhead b hb) with hab | ⟨_, hab⟩
          · exact absurd (hk.trans hbk.symm) hab.ne
          · exact hab
    · have hseek : seek (a :: l) (makeKey k s .valueForSeek) =
          seek l (makeKey k s .valueForSeek) := by
        rw [seek, find?_cons, show decide (a.key.compare (makeKey k s .valueForSeek) ≠ .lt) =
          false by
          simpa using ha]
        rfl
      have hvis : entryStamp.visible k s a = false := by
        rw [Bool.eq_false_iff, Ne, Stamp.visible_iff]
        exact fun hv => ha (not_before_seekKey.mpr (Or.inr hv))
      rw [seekEntry, hseek, ← seekEntry, ih, Stamp.newest, Stamp.newest, filter_cons, hvis]
      rfl

section KeyBytes

def flagByte : Flag → UInt8
  | .value => 0
  | .deletion => 1
  | .valueForSeek => 2

/-- `KeyBoundle::MakeKey`: the user key and the eight bytes of its tag. -/
def keyBytes (key : InternalKey Bytes) : Bytes :=
  key.userKey ++ toFixed 8 (key.tag.sequenceNumber * 256 + (flagByte key.tag.flag).toNat)

structure ParsedTaggedKey where
  userKey : Bytes
  sequenceNumber : ℕ
  flag : ℕ
  deriving DecidableEq, Repr

/-- `KeyBoundle::ParseTaggedKey`: a key that is too short leaves the parsed key as it was made. -/
def parseTaggedKey (key : Bytes) : ParsedTaggedKey :=
  if key.length < 8 then ⟨[], 0, 0⟩
  else
    let tag := ofFixed (key.drop (key.length - 8))
    ⟨key.take (key.length - 8), tag / 256, tag % 256⟩

/-- `KeyBoundle::ExtractUserKey`: no result if there is no tag to take away. -/
def extractUserKey (key : Bytes) : Option Bytes :=
  if key.length < 8 then none else some (key.take (key.length - 8))

def tagOf (key : InternalKey Bytes) : ℕ × ℕ :=
  (key.tag.sequenceNumber, (flagByte key.tag.flag).toNat)

variable {key : InternalKey Bytes}

lemma length_keyBytes (key : InternalKey Bytes) :
    (keyBytes key).length = key.userKey.length + 8 := by
  simp [keyBytes]

lemma extractUserKey_keyBytes (key : InternalKey Bytes) :
    extractUserKey (keyBytes key) = some key.userKey := by
  rw [extractUserKey, length_keyBytes, if_neg (by omega), Nat.add_sub_cancel, keyBytes,
    take_left]

lemma parseTaggedKey_keyBytes (h : key.tag.sequenceNumber ≤ kMaxSequenceNumber) :
    parseTaggedKey (keyBytes key) = ⟨key.userKey, (tagOf key).1, (tagOf key).2⟩ := by
  have hflag := (flagByte key.tag.flag).toNat_lt
  have hlt : key.tag.sequenceNumber * 256 + (flagByte key.tag.flag).toNat < 256 ^ 8 := by
    have hmax : kMaxSequenceNumber = 72057594037927935 := rfl
    omega
  rw [parseTaggedKey, if_neg (by rw [length_keyBytes]; omega), length_keyBytes, Nat.add_sub_cancel,
    keyBytes, take_left, drop_left, ofFixed_toFixed hlt]
  simp only [tagOf, ParsedTaggedKey.mk.injEq, true_and]
  omega

end KeyBytes

end Mai.CoreKeys
