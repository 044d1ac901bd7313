import Mai.CoreKeys

/-! The comparator of byte strings and the shortened keys it makes
(`core/bytewise-comparator.cc`). -/
namespace Mai.CoreBytewiseComparator

open CoreKeys List

def memcmp : Bytes → Bytes → ℤ
  | a :: l, b :: m => if a < b then -1 else if b < a then 1 else memcmp l m
  | _, _ => 0

def compare (lhs rhs : Bytes) : ℤ :=
  let r := memcmp lhs rhs
  if r = 0 then if lhs.length < rhs.length then -1 else if rhs.length < lhs.length then 1 else r
  else r

def diffIndex : Bytes → Bytes → ℕ
  | a :: l, b :: m => if a = b then diffIndex l m + 1 else 0
  | _, _ => 0

def increment : Bytes → Bytes
  | [] => []
  | c :: k => if c < 0xff then [c + 1] else c :: increment k

def findShortestSeparator (start limit : Bytes) : Bytes :=
  let i := diffIndex start limit
  match start.drop i, limit.drop i with
  | startByte :: rest, limitByte :: _ =>
    if limitByte ≤ startByte then start
    else if i < limit.length - 1 ∨ startByte.toNat + 1 <
      limitByte.toNat then start.take i ++ [startByte + 1]
    else start.take (i + 1) ++ increment rest
  | _, _ => start

def findShortSuccessor (key : Bytes) : Bytes := increment key

section Order

variable {a b : UInt8} {l m : Bytes}

lemma cons_le_cons : a :: l ≤ b :: m ↔ a < b ∨ a = b ∧ l ≤ m := by
  rw [← not_lt, cons_lt_cons_iff, not_or, not_and, not_lt, not_lt]
  constructor
  · rintro ⟨hab, hlm⟩
    exact hab.lt_or_eq.imp_right fun h => ⟨h, hlm h.symm⟩
  · rintro (h | ⟨rfl, h⟩)
    · exact ⟨h.le, fun heq => absurd heq h.ne'⟩
    · exact ⟨le_rfl, fun _ => h⟩

lemma compare_neg_iff (lhs rhs : Bytes) : compare lhs rhs < 0 ↔ lhs < rhs := by
  induction lhs generalizing rhs with
  | nil => cases rhs <;> simp [compare, memcmp]
  | cons a l ih =>
    cases rhs with
    | nil => simp [compare, memcmp]
    | cons b m =>
      rw [cons_lt_cons_iff, ← ih m]
      rcases lt_trichotomy a b with h | rfl | h
      · simp [compare, memcmp, h]
      · simp [compare, memcmp]
      · simp [compare, memcmp, h, h.asymm, h.ne']

lemma lt_succ (h : a < b) : a < a + 1 ∧ (a + 1).toNat = a.toNat + 1 := by
  have hab := UInt8.lt_iff_toNat_lt.mp h
  have hb := b.toNat_lt
  have hsucc : (a + 1).toNat = a.toNat + 1 := by
    rw [UInt8.toNat_add, UInt8.toNat_one]
    exact Nat.mod_eq_of_lt (by omega)
  exact ⟨UInt8.lt_iff_toNat_lt.mpr (by omega), hsucc⟩

lemma le_increment (k : Bytes) : k ≤ increment k := by
  induction k with
  | nil => exact le_rfl
  | cons c k ih =>
    rw [increment]
    split_ifs with h
    · exact cons_le_cons.mpr (.inl (lt_succ h).1)
    · exact cons_le_cons.mpr (.inr ⟨rfl, ih⟩)

end Order

section Separator

variable {a b : UInt8} {start limit : Bytes}

lemma separator_cons (start limit : Bytes) :
    findShortestSeparator (a :: start) (a :: limit) = a :: findShortestSeparator start limit := by
  have hlen : diffIndex start limit + 1 < limit.length ↔ diffIndex start limit <
      limit.length - 1 := by omega
  simp only [findShortestSeparator, diffIndex, if_pos, drop_succ_cons, length_cons,
    Nat.add_sub_cancel, take_succ_cons, hlen]
  split
  · split_ifs <;> rfl
  · rfl

lemma separator_of_lt (h : a < b) : a :: start ≤ findShortestSeparator (a :: start) (b :: limit) ∧
    findShortestSeparator (a :: start) (b :: limit) < b :: limit := by
  obtain ⟨hlt, hsucc⟩ := lt_succ h
  have hab := UInt8.lt_iff_toNat_lt.mp h
  simp only [findShortestSeparator, diffIndex, if_neg h.ne, drop_zero, length_cons,
    Nat.add_sub_cancel, take_zero, nil_append, take_succ_cons, if_neg (not_le.mpr h), cons_append]
  split_ifs with hcut
  · refine ⟨cons_le_cons.mpr (.inl hlt), cons_lt_cons_iff.mpr ?_⟩
    by_cases hadj : a.toNat + 1 < b.toNat
    · exact .inl (UInt8.lt_iff_toNat_lt.mpr (by omega))
    · -- the incremented byte is the limit's, and the limit goes on behind it
      obtain ⟨c, limit, rfl⟩ := exists_cons_of_length_pos (hcut.resolve_right hadj)
      exact .inr ⟨UInt8.toNat_inj.mp (by omega), nil_lt_cons c limit⟩
  · exact ⟨cons_le_cons.mpr (.inr ⟨rfl, le_increment start⟩), cons_lt_cons_iff.mpr (.inl h)⟩

lemma separator_spec (h : start < limit) :
    start ≤ findShortestSeparator start limit ∧ findShortestSeparator start limit < limit := by
  induction start generalizing limit with
  | nil => exact ⟨le_rfl, h⟩
  | cons a start ih =>
    cases limit with
    | nil => simp at h
    | cons b limit =>
      rcases cons_lt_cons_iff.mp h with hab | ⟨rfl, hrest⟩
      · exact separator_of_lt hab
      · obtain ⟨hle, hlt⟩ := ih hrest
        rw [separator_cons]
        exact ⟨cons_le_cons.mpr (.inr ⟨rfl, hle⟩), cons_lt_cons_iff.mpr (.inr ⟨rfl, hlt⟩)⟩

/-- A separator lies between its two keys, and a successor is not before its key. -/
theorem separators_between (start limit key : Bytes) :
    (compare start limit < 0 → ¬compare (findShortestSeparator start limit) start < 0 ∧
      compare (findShortestSeparator start limit) limit < 0) ∧
    ¬compare (findShortSuccessor key) key < 0 := by
  simp only [compare_neg_iff, not_lt]
  exact ⟨separator_spec, le_increment key⟩

end Separator

end Mai.CoreBytewiseComparator
