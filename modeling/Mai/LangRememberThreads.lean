import Mai.LangRememberSet
import Mai.IndexChain
import Mai.RunInvariant

/-!
# Insertion into the remember set by several threads

`RememberSet::Insert` (`lang/garbage-collector.cc`) takes a ticket, looks for its place in the
list of a bucket, and links its node there by a compare-and-swap, from the start again if the
list has changed. Cells are numbers; the buckets are the first of them, and 0 is the null pointer.
-/
namespace Mai.LangRememberThreads

open LangRememberSet IndexChain RunInvariant Function List Option

variable {A T : Type*} [LinearOrder A] [DecidableEq T]

section Model

/-- Where a call is: before the load of `p->next`, before the store to `node->next`, or before the
compare-and-swap of `p->next`. -/
inductive Pc
  | idle
  | load (node p : ℕ)
  | store (node p dest : ℕ)
  | exchange (node p dest : ℕ)
  deriving DecidableEq

/-- `inserted` is not part of the source: the records of the calls so far. -/
structure Threads (A T : Type*) where
  recordSequence : ℕ
  top : ℕ
  record : ℕ → Node A
  next : ℕ → ℕ
  pc : T → Pc
  inserted : List (Node A)

inductive Op (A T : Type*)
  | call (t : T) (address : A) (tag : Tag)
  | advance (t : T)

variable {n : ℕ} (hash : A → Fin n)

def bucket (address : A) : ℕ := hash address + 1

def new (n : ℕ) (record : Node A) : Threads A T :=
  ⟨0, n + 1, fun _ => record, fun _ => 0, fun _ => .idle, []⟩

def call (s : Threads A T) (t : T) (address : A) (tag : Tag) : Threads A T where
  recordSequence := s.recordSequence + 1
  top := s.top + 1
  record := update s.record s.top ⟨s.recordSequence, address, tag⟩
  next := update s.next s.top 0
  pc := update s.pc t (.load s.top (bucket hash address))
  inserted := s.inserted ++ [⟨s.recordSequence, address, tag⟩]

def goto (s : Threads A T) (t : T) (pc : Pc) : Threads A T := { s with pc := update s.pc t pc }

/-- One atomic access of a call: a load of `FindGreaterOrEqual`, the store, or the
compare-and-swap. -/
def advance (s : Threads A T) (t : T) : Option (Threads A T) :=
  match s.pc t with
  | .idle => none
  | .load node p =>
    some (if s.next p = 0 ∨ (s.record (s.next p)).ge (s.record node)
      then goto s t (.store node p (s.next p))
      else goto s t (.load node (s.next p)))
  | .store node p dest =>
    some (goto { s with next := update s.next node dest } t (.exchange node p dest))
  | .exchange node p dest =>
    some (if s.next p = dest then goto { s with next := update s.next p node } t .idle
      else goto s t (.load node (bucket hash (s.record node).address)))

def step (s : Threads A T) : Op A T → Option (Threads A T)
  | .call t address tag =>
    match s.pc t with
    | .idle => some (call hash s t address tag)
    | _ => none
  | .advance t => advance hash s t

def walk (next : ℕ → ℕ) : ℕ → ℕ → List ℕ
  | 0, _ => []
  | fuel + 1, i => if i = 0 then [] else i :: walk next fuel (next i)

def records (s : Threads A T) (i : ℕ) : List (Node A) :=
  (walk s.next s.top (s.next (i + 1))).map s.record

def nodes (n : ℕ) (s : Threads A T) : List (Node A) := (List.range (n)).flatMap (records s)

def met (latestKey : Option A) : List (Node A) → List (Node A)
  | [] => []
  | x :: xs => if latestKey = some x.address then met latestKey xs else x :: met (some x.address) xs

end Model

section Statement

variable {n : ℕ} (hash : A → Fin n)

/-- The lists are sorted and hold each record that has been inserted once; an iteration meets for
each address the record with the greatest ticket. -/
structure Linearised (s : Threads A T) : Prop where
  sorted : ∀ i < n, (records s i).Pairwise Before
  hashed : ∀ i < n, ∀ x ∈ records s i, hash x.address = i
  complete : (nodes n s).Perm s.inserted
  once : ((met none (nodes n s)).map Node.address).Nodup
  greatest : ∀ x, x ∈ met none (nodes n s) ↔
    x ∈ s.inserted ∧ ∀ y ∈ s.inserted, y.address = x.address → y.sequenceNumber ≤ x.sequenceNumber

def Quiet (s : Threads A T) : Prop := ∀ t, s.pc t = .idle

end Statement

section Chains

variable {l : List ℕ}

lemma walk_eq {next : ℕ → ℕ} {fuel i : ℕ} (h : Linked next i l) (hfuel : l.length < fuel) :
    walk next fuel i = l := by
  induction l generalizing fuel i with
  | nil =>
    obtain ⟨fuel, rfl⟩ := Nat.exists_eq_succ_of_ne_zero hfuel.ne_bot
    exact if_pos h
  | cons j l ih =>
    obtain ⟨fuel, rfl⟩ := Nat.exists_eq_succ_of_ne_zero (Nat.ne_of_gt (Nat.zero_lt_of_lt hfuel))
    obtain ⟨rfl, hi, hl⟩ := h
    rw [walk, if_neg hi, ih hl (by rw [length_cons] at hfuel; omega)]

def owned : Pc → Option ℕ
  | .idle => none
  | .load node _ => some node
  | .store node _ _ => some node
  | .exchange node _ _ => some node

variable {n : ℕ} {hash : A → Fin n} {s : Threads A T}

def Placed {n : ℕ} (hash : A → Fin n) (s : Threads A T) (c m : ℕ) : Prop :=
  n < m ∧ m < s.top ∧ bucket hash (s.record m).address = c ∧ ∀ t, owned (s.pc t) ≠ some m

def Behind {n : ℕ} (hash : A → Fin n) (s : Threads A T) (m p : ℕ) : Prop :=
  p = bucket hash (s.record m).address
    ∨ Placed hash s (bucket hash (s.record m).address) p ∧ Before (s.record p) (s.record m)

def Ahead {n : ℕ} (hash : A → Fin n) (s : Threads A T) (m d : ℕ) : Prop :=
  d = 0 ∨ Placed hash s (bucket hash (s.record m).address) d ∧ Before (s.record m) (s.record d)

def Standing {n : ℕ} (hash : A → Fin n) (s : Threads A T) : Pc → Prop
  | .idle => True
  | .load m p => Behind hash s m p
  | .store m p d => Behind hash s m p ∧ Ahead hash s m d
  | .exchange m p d => Behind hash s m p ∧ Ahead hash s m d ∧ s.next m = d

structure Inv {n : ℕ} (hash : A → Fin n) (s : Threads A T) : Prop where
  top : s.top = n + 1 + s.recordSequence
  inserted : s.inserted = (List.range s.recordSequence).map fun k => s.record (n + 1 + k)
  ticket : ∀ k < s.recordSequence, (s.record (n + 1 + k)).sequenceNumber = k
  chains : ∀ c, 0 < c → c ≤ n → ∃ l, Linked s.next c (c :: l) ∧ (l.map s.record).Pairwise Before
    ∧ ∀ m, m ∈ l ↔ Placed hash s c m
  fresh : ∀ t m, owned (s.pc t) = some m → n < m ∧ m < s.top
  unique : ∀ t u m, owned (s.pc t) = some m → owned (s.pc u) = some m → t = u
  standing : ∀ t, Standing hash s (s.pc t)

structure Grows (s s' : Threads A T) : Prop where
  top : s.top ≤ s'.top
  record : ∀ m < s.top, s'.record m = s.record m
  owned : ∀ t m, m < s.top → owned (s'.pc t) = some m → ∃ u, owned (s.pc u) = some m

variable {s' : Threads A T} {c m p d : ℕ} {t : T} {pc : Pc}

omit [LinearOrder A] [DecidableEq T] in
lemma Placed.mono (hg : Grows s s') (h : Placed hash s c m) : Placed hash s' c m := by
  obtain ⟨hlow, hhigh, hbucket, hfree⟩ := h
  refine ⟨hlow, hhigh.trans_le hg.top, by rw [hg.record m hhigh]; exact hbucket, fun t ht => ?_⟩
  obtain ⟨u, hu⟩ := hg.owned t m hhigh ht
  exact hfree u hu

omit [DecidableEq T] in
lemma Behind.mono (hg : Grows s s') (hm : m < s.top) (h : Behind hash s m p) :
    Behind hash s' m p := by
  rw [Behind, hg.record m hm]
  exact h.imp id fun ⟨hp, hbefore⟩ => ⟨hp.mono hg, by rw [hg.record p hp.2.1]; exact hbefore⟩

omit [DecidableEq T] in
lemma Ahead.mono (hg : Grows s s') (hm : m < s.top) (h : Ahead hash s m d) :
    Ahead hash s' m d := by
  rw [Ahead, hg.record m hm]
  exact h.imp id fun ⟨hd, hbefore⟩ => ⟨hd.mono hg, by rw [hg.record d hd.2.1]; exact hbefore⟩

omit [DecidableEq T] in
lemma Standing.mono (hg : Grows s s')
    (hfresh : ∀ m, owned pc = some m → m < s.top ∧ s'.next m = s.next m) (h : Standing hash s pc) :
    Standing hash s' pc := by
  cases pc with
  | idle => trivial
  | load m p => exact Behind.mono hg (hfresh m rfl).1 h
  | store m p d => exact ⟨h.1.mono hg (hfresh m rfl).1, h.2.mono hg (hfresh m rfl).1⟩
  | exchange m p d =>
    obtain ⟨hm, hnext⟩ := hfresh m rfl
    exact ⟨h.1.mono hg hm, h.2.1.mono hg hm, hnext.trans h.2.2⟩

omit [LinearOrder A] in
lemma owned_goto (howned : owned pc = owned (s.pc t)) (u : T) :
    owned ((goto s t pc).pc u) = owned (s.pc u) := by
  by_cases hu : u = t
  · rw [hu, ← howned]
    exact congrArg owned (update_self ..)
  · exact congrArg owned (update_of_ne hu _ _)

omit [LinearOrder A] in
lemma placed_goto (howned : owned pc = owned (s.pc t)) :
    Placed hash (goto s t pc) c m ↔ Placed hash s c m := by
  simp only [Placed, owned_goto howned]
  rfl

lemma inv_goto (h : Inv hash s) (howned : owned pc = owned (s.pc t))
    (hstanding : Standing hash s pc) : Inv hash (goto s t pc) := by
  have hg : Grows s (goto s t pc) :=
    ⟨le_rfl, fun _ _ => rfl, fun u m _ hu => ⟨u, by rwa [owned_goto howned] at hu⟩⟩
  refine ⟨h.top, h.inserted, h.ticket, fun c hpos hc => ?_, fun u m hu => ?_, fun u v m hu hv => ?_,
    fun u => ?_⟩
  · obtain ⟨l, hlinked, hsorted, hmem⟩ := h.chains c hpos hc
    exact ⟨l, hlinked, hsorted, fun m => (hmem m).trans (placed_goto howned).symm⟩
  · rw [owned_goto howned] at hu
    exact h.fresh u m hu
  · rw [owned_goto howned] at hu hv
    exact h.unique u v m hu hv
  · by_cases hu : u = t
    · have hpc : (goto s t pc).pc u = pc := by rw [hu]; exact update_self ..
      rw [hpc]
      exact hstanding.mono hg fun m hm => ⟨(h.fresh t m (howned ▸ hm)).2, rfl⟩
    · have hpc : (goto s t pc).pc u = s.pc u := update_of_ne hu _ _
      rw [hpc]
      exact (h.standing u).mono hg fun m hm => ⟨(h.fresh u m hm).2, rfl⟩

omit [DecidableEq T] in
lemma Inv.next_congr (h : Inv hash s) (hm : owned (s.pc t) = some m) (hc : c ≤ n)
    (hmem : ∀ m, m ∈ l ↔ Placed hash s c m) (hlinked : Linked s.next c (c :: l)) :
    Linked (update s.next m d) c (c :: l) := by
  refine hlinked.congr fun j hj => update_of_ne ?_ _ _
  rintro rfl
  rcases mem_cons.mp hj with rfl | hj
  · exact absurd (h.fresh t j hm).1 (not_lt.mpr hc)
  · exact ((hmem j).mp hj).2.2.2 t hm

lemma inv_store (h : Inv hash s) (hpc : s.pc t = .store m p d) :
    Inv hash (goto { s with next := update s.next m d } t (.exchange m p d)) := by
  have hm : owned (s.pc t) = some m := by rw [hpc]; rfl
  have hg : Grows s { s with next := update s.next m d } :=
    ⟨le_rfl, fun _ _ => rfl, fun u m _ hu => ⟨u, hu⟩⟩
  have hstore : Inv hash { s with next := update s.next m d } := by
    refine ⟨h.top, h.inserted, h.ticket, fun c hpos hc => ?_, h.fresh, h.unique, fun u => ?_⟩
    · obtain ⟨l, hlinked, hsorted, hmem⟩ := h.chains c hpos hc
      exact ⟨l, h.next_congr hm hc hmem hlinked, hsorted, hmem⟩
    · by_cases hu : u = t
      · have hstanding := h.standing t
        rw [hpc] at hstanding
        dsimp only
        rw [hu, hpc]
        exact ⟨hstanding.1.mono hg (h.fresh t m hm).2, hstanding.2.mono hg (h.fresh t m hm).2⟩
      · refine (h.standing u).mono hg fun m' hm' => ⟨(h.fresh u m' hm').2, update_of_ne ?_ _ _⟩
        rintro rfl
        exact hu (h.unique u t m' hm' hm)
  have hstanding := hstore.standing t
  dsimp only at hstanding
  rw [hpc] at hstanding
  exact inv_goto hstore (by dsimp only; rw [hpc]; rfl) ⟨hstanding.1, hstanding.2, update_self ..⟩

omit [LinearOrder A] in
lemma bucket_le {n : ℕ} (hash : A → Fin n) (address : A) : bucket hash address ≤ n :=
  (hash address).isLt

lemma inv_call (h : Inv hash s) (hidle : s.pc t = .idle) (address : A) (tag : Tag) :
    Inv hash (call hash s t address tag) := by
  set s' := call hash s t address tag
  have hpc : ∀ u, u ≠ t → s'.pc u = s.pc u :=
    fun u hu => update_of_ne hu _ _
  have hpct : s'.pc t
      = .load s.top (bucket hash address) := update_self ..
  have hrecord : ∀ m < s.top, s'.record m = s.record m :=
    fun m hm => update_of_ne hm.ne _ _
  have hnew : s'.record s.top
      = ⟨s.recordSequence, address, tag⟩ := update_self ..
  have htop := h.top
  have hg : Grows s s' := by
    refine ⟨Nat.le_succ _, hrecord, fun u m hm hu => ?_⟩
    by_cases hut : u = t
    · rw [hut, hpct] at hu
      exact absurd (Option.some.inj hu) hm.ne'
    · exact ⟨u, by rwa [hpc u hut] at hu⟩
  have hplaced : ∀ c m, Placed hash s' c m
      ↔ Placed hash s c m := by
    refine fun c m => ⟨fun ⟨hlow, hhigh, hbucket, hfree⟩ => ?_, fun hm => hm.mono hg⟩
    have hm : m < s.top :=
      (Nat.lt_succ_iff_lt_or_eq.mp hhigh).resolve_right fun heq => hfree t (by rw [hpct, heq]; rfl)
    refine ⟨hlow, hm, by rwa [hrecord m hm] at hbucket, fun u hu => ?_⟩
    by_cases hut : u = t
    · rw [hut, hidle] at hu
      cases hu
    · exact hfree u (by rwa [hpc u hut])
  have hold : ∀ k < s.recordSequence, s'.record
      (n + 1 + k) = s.record (n + 1 + k) := fun k hk => hrecord _ (by omega)
  refine ⟨by dsimp only [s', call]; omega, ?_, fun k hk => ?_, fun c hpos hc => ?_,
    fun u m hu => ?_, fun u v m hu hv => ?_, fun u => ?_⟩
  · have hlast : s'.record (n + 1 + s.recordSequence)
        = ⟨s.recordSequence, address, tag⟩ := by rw [← htop]; exact hnew
    dsimp only [s', call] at hlast hold ⊢
    rw [range_succ, map_append, map_singleton, hlast, h.inserted]
    congr 1
    exact map_congr_left fun k hk => (hold k (mem_range.mp hk)).symm
  · rcases Nat.lt_succ_iff_lt_or_eq.mp hk with hk | rfl
    · rw [hold k hk]
      exact h.ticket k hk
    · rw [← htop, hnew]
  · obtain ⟨l, hlinked, hsorted, hmem⟩ := h.chains c hpos hc
    refine ⟨l, hlinked.congr fun j hj => update_of_ne ?_ _ _, ?_,
      fun m => (hmem m).trans (hplaced c m).symm⟩
    · rcases mem_cons.mp hj with rfl | hj
      · omega
      · exact ((hmem j).mp hj).2.1.ne
    · rw [map_congr_left fun j hj => hrecord j ((hmem j).mp hj).2.1]
      exact hsorted
  · by_cases hut : u = t
    · rw [hut, hpct] at hu
      obtain rfl := Option.some.inj hu
      exact ⟨by omega, Nat.lt_succ_self _⟩
    · rw [hpc u hut] at hu
      exact ⟨(h.fresh u m hu).1, (h.fresh u m hu).2.trans (Nat.lt_succ_self _)⟩
  · by_cases hut : u = t <;> by_cases hvt : v = t
    · rw [hut, hvt]
    · rw [hut, hpct] at hu
      rw [hpc v hvt] at hv
      exact absurd (Option.some.inj hu) (h.fresh v m hv).2.ne'
    · rw [hvt, hpct] at hv
      rw [hpc u hut] at hu
      exact absurd (Option.some.inj hv) (h.fresh u m hu).2.ne'
    · rw [hpc u hut] at hu
      rw [hpc v hvt] at hv
      exact h.unique u v m hu hv
  · by_cases hut : u = t
    · rw [hut, hpct]
      exact .inl (by rw [hnew])
    · rw [hpc u hut]
      refine (h.standing u).mono hg fun m hm =>
        ⟨(h.fresh u m hm).2, update_of_ne (h.fresh u m hm).2.ne _ _⟩

lemma sorted_insert {x : Node A} {l₁ l₂ : List (Node A)} (h : (l₁ ++ l₂).Pairwise Before)
    (h₁ : ∀ y ∈ l₁.getLast?, Before y x) (h₂ : ∀ y ∈ l₂.head?, Before x y) :
    (l₁ ++ x :: l₂).Pairwise Before := by
  obtain ⟨hp₁, hp₂, hcross⟩ := pairwise_append.mp h
  have hbefore : ∀ y ∈ l₁, Before y x := fun y hy => by
    obtain ⟨l, z, rfl⟩ := (eq_nil_or_concat' l₁).resolve_left (ne_nil_of_mem hy)
    have hz := h₁ z (by simp)
    rcases mem_append.mp hy with hy | hy
    · exact ((pairwise_append.mp hp₁).2.2 y hy z (by simp)).trans hz
    · rwa [mem_singleton.mp hy]
  have hafter : ∀ y ∈ l₂, Before x y := fun y hy => by
    cases l₂ with
    | nil => cases hy
    | cons z l =>
      have hz := h₂ z rfl
      rcases mem_cons.mp hy with rfl | hy
      · exact hz
      · exact hz.trans ((pairwise_cons.mp hp₂).1 y hy)
  refine pairwise_append.mpr ⟨hp₁, pairwise_cons.mpr ⟨hafter, hp₂⟩, fun y hy z hz => ?_⟩
  rcases mem_cons.mp hz with rfl | hz
  · exact hbefore y hy
  · exact hcross y hy z hz

lemma insert_behind {next : ℕ → ℕ} (h : Linked next c (c :: l)) (hp : p ∈ c :: l) (hm : m ≠ 0)
    (hnew : m ∉ c :: l) (hnext : next m = next p) :
    ∃ l₁ l₂, l = l₁ ++ l₂ ∧ Linked (update next p m) c (c :: (l₁ ++ m :: l₂)) ∧ l₂.headD 0 = next p
      ∧ ∀ y ∈ l₁.getLast?, y = p := by
  obtain ⟨a, b, hsplit⟩ := append_of_mem hp
  have hmp : m ≠ p := fun heq => hnew (heq ▸ hp)
  rw [hsplit] at h hnew
  have hlinked := h.insertAfter hm hnew (update_self p m next)
    (by rw [update_of_ne hmp]; exact hnext) fun k hk _ => update_of_ne hk _ _
  have hhead : b.headD 0 = next p := h.suffix.next_eq.symm
  cases a with
  | nil =>
    obtain ⟨rfl, rfl⟩ := List.cons.inj hsplit
    exact ⟨[], l, rfl, hlinked, hhead, by simp⟩
  | cons c' a =>
    obtain ⟨rfl, rfl⟩ := List.cons.inj hsplit
    exact ⟨a ++ [p], b, by simp, by simpa using hlinked, hhead, by simp⟩

/-- The state after a compare-and-swap that has succeeded. -/
abbrev exchanged (s : Threads A T) (t : T) (m p : ℕ) : Threads A T :=
  goto { s with next := update s.next p m } t .idle

omit [LinearOrder A] in
lemma pc_exchanged (u : T) (hu : u ≠ t) : (exchanged s t m p).pc u = s.pc u := update_of_ne hu _ _

lemma owned_exchanged (h : Inv hash s) (hm : owned (s.pc t) = some m) {u : T} {k : ℕ} :
    owned ((exchanged s t m p).pc u) = some k ↔ owned (s.pc u) = some k ∧ k ≠ m := by
  by_cases hu : u = t
  · have hpct : (exchanged s t m p).pc t = .idle := update_self ..
    rw [hu, hpct, hm]
    refine iff_of_false (by simp [owned]) fun ⟨hk, hne⟩ => hne (Option.some.inj hk).symm
  · rw [pc_exchanged u hu]
    refine ⟨fun hk => ⟨hk, ?_⟩, And.left⟩
    rintro rfl
    exact hu (h.unique u t k hk hm)

lemma grows_exchanged (h : Inv hash s) (hm : owned (s.pc t) = some m) :
    Grows s (exchanged s t m p) :=
  ⟨le_rfl, fun _ _ => rfl, fun u _ _ hu => ⟨u, ((owned_exchanged h hm).mp hu).1⟩⟩

lemma placed_exchanged (h : Inv hash s) (hm : owned (s.pc t) = some m) {e k : ℕ} :
    Placed hash (exchanged s t m p) e k ↔
      Placed hash s e k ∨ k = m ∧ e = bucket hash (s.record m).address := by
  constructor
  · rintro ⟨hk, hk', hbucket, hfree⟩
    by_cases hkm : k = m
    · exact .inr ⟨hkm, hbucket.symm.trans (by rw [hkm]; rfl)⟩
    · exact .inl ⟨hk, hk', hbucket, fun u hu => hfree u ((owned_exchanged h hm).mpr ⟨hu, hkm⟩)⟩
  · rintro (hk | ⟨rfl, rfl⟩)
    · exact hk.mono (grows_exchanged h hm)
    · exact ⟨(h.fresh t k hm).1, (h.fresh t k hm).2, rfl,
        fun u hu => ((owned_exchanged h hm).mp hu).2 rfl⟩

omit [DecidableEq T] in
/-- The list of the bucket of the new node, with the node linked behind the cell where the call
stands. -/
lemma Inv.chain_insert (h : Inv hash s) (hm : owned (s.pc t) = some m) (hbehind : Behind hash s m p)
    (hahead : Ahead hash s m (s.next p)) (hnext : s.next m = s.next p)
    (hc : c = bucket hash (s.record m).address) :
    ∃ l, Linked (update s.next p m) c (c :: l) ∧ (l.map s.record).Pairwise Before
      ∧ ∀ k, k ∈ l ↔ Placed hash s c k ∨ k = m := by
  obtain ⟨hlow, -⟩ := h.fresh t m hm
  have hcn : c ≤ n := hc ▸ bucket_le hash _
  obtain ⟨l, hlinked, hsorted, hmem⟩ := h.chains c (hc ▸ Nat.succ_pos _) hcn
  have hnew : m ∉ c :: l := fun hml => by
    rcases mem_cons.mp hml with heq | hml
    · omega
    · exact ((hmem m).mp hml).2.2.2 t hm
  have hpl : p ∈ c :: l := by
    rcases hbehind with hp | ⟨hp, -⟩
    · rw [hp, ← hc]
      exact mem_cons_self
    · exact mem_cons_of_mem _ ((hmem p).mpr (hc ▸ hp))
  obtain ⟨l₁, l₂, rfl, hlinked', hhead, hlast⟩ :=
    insert_behind hlinked hpl (by omega) hnew hnext
  refine ⟨l₁ ++ m :: l₂, hlinked', ?_, fun k => ?_⟩
  · rw [map_append, map_cons]
    refine sorted_insert (by rw [← map_append]; exact hsorted) (fun y hy => ?_) fun y hy => ?_
    · rw [getLast?_map] at hy
      obtain ⟨k, hk, rfl⟩ := map_eq_some_iff.mp hy
      obtain rfl := hlast k hk
      have hkl := ((hmem k).mp (mem_append_left _ (mem_of_getLast? hk))).1
      exact (hbehind.resolve_left (by omega)).2
    · rw [head?_map] at hy
      obtain ⟨k, hk, rfl⟩ := map_eq_some_iff.mp hy
      obtain ⟨rest, rfl⟩ := head?_eq_some_iff.mp hk
      obtain rfl : k = s.next p := hhead
      have hkl := ((hmem _).mp (mem_append_right _ mem_cons_self)).1
      exact (hahead.resolve_left (by omega)).2
  · rw [← hmem k]
    simp only [mem_append, mem_cons]
    tauto

omit [DecidableEq T] in
/-- The lists of the other buckets do not hold the cell that changes. -/
lemma Behind.chain_other (hbehind : Behind hash s m p)
    (hc : c ≠ bucket hash (s.record m).address) (hcn : c ≤ n)
    (hmem : ∀ k, k ∈ l ↔ Placed hash s c k) (hlinked : Linked s.next c (c :: l)) :
    Linked (update s.next p m) c (c :: l) := by
  refine hlinked.congr fun j hj => update_of_ne ?_ _ _
  rintro rfl
  rcases mem_cons.mp hj with rfl | hj
  · exact hbehind.elim hc fun hp => absurd hp.1.1 (not_lt.mpr hcn)
  · rcases hbehind with rfl | ⟨hp, -⟩
    · exact absurd ((hmem _).mp hj).1 (not_lt.mpr (bucket_le hash _))
    · exact hc (((hmem j).mp hj).2.2.1.symm.trans hp.2.2.1)

lemma inv_exchange (h : Inv hash s) (hpc : s.pc t = .exchange m p d) (hd : s.next p = d) :
    Inv hash (exchanged s t m p) := by
  have hm : owned (s.pc t) = some m := by rw [hpc]; rfl
  have hstanding := h.standing t
  rw [hpc, ← hd] at hstanding
  obtain ⟨hbehind, hahead, hnext⟩ := hstanding
  refine ⟨h.top, h.inserted, h.ticket, fun e hpos he => ?_,
    fun u k hu => h.fresh u k ((owned_exchanged h hm).mp hu).1,
    fun u v k hu hv => h.unique u v k ((owned_exchanged h hm).mp hu).1
      ((owned_exchanged h hm).mp hv).1, fun u => ?_⟩
  · by_cases hec : e = bucket hash (s.record m).address
    · obtain ⟨l, hlinked, hsorted, hmem⟩ := h.chain_insert hm hbehind hahead hnext hec
      exact ⟨l, hlinked, hsorted, fun k => by rw [hmem k, placed_exchanged h hm, and_iff_left hec]⟩
    · obtain ⟨l, hlinked, hsorted, hmem⟩ := h.chains e hpos he
      refine ⟨l, hbehind.chain_other hec he hmem hlinked, hsorted, fun k => ?_⟩
      rw [placed_exchanged h hm, hmem k]
      exact ⟨.inl, fun hk => hk.resolve_right fun hk => hec hk.2⟩
  · by_cases hu : u = t
    · have hpct : (exchanged s t m p).pc t = .idle := update_self ..
      rw [hu, hpct]
      trivial
    · rw [pc_exchanged u hu]
      refine (h.standing u).mono (grows_exchanged h hm) fun k hk =>
        ⟨(h.fresh u k hk).2, update_of_ne ?_ _ _⟩
      rintro rfl
      rcases hbehind with rfl | ⟨hp, -⟩
      · exact absurd (h.fresh u _ hk).1 (not_lt.mpr (bucket_le hash _))
      · exact hp.2.2.2 u hk

omit [DecidableEq T] in
lemma Inv.sequenceNumber (h : Inv hash s) (hlow : n < m) (hhigh : m < s.top) :
    (s.record m).sequenceNumber + (n + 1) = m := by
  have htop := h.top
  have hticket := h.ticket (m - (n + 1)) (by omega)
  rw [Nat.add_sub_cancel' hlow] at hticket
  omega

omit [DecidableEq T] in
lemma Inv.placed_next (h : Inv hash s) (hbehind : Behind hash s m p) (hne : s.next p ≠ 0) :
    Placed hash s (bucket hash (s.record m).address) (s.next p) := by
  obtain ⟨l, hlinked, -, hmem⟩ := h.chains (bucket hash (s.record m).address) (Nat.succ_pos _)
    (bucket_le hash (s.record m).address)
  have hp : p ∈ bucket hash (s.record m).address :: l :=
    hbehind.elim (fun heq => heq ▸ mem_cons_self) fun hp => mem_cons_of_mem _ ((hmem p).mpr hp.1)
  obtain ⟨a, b, hsplit⟩ := append_of_mem hp
  rw [hsplit] at hlinked
  have hnext := hlinked.suffix.next_eq
  cases b with
  | nil => exact absurd hnext hne
  | cons x b =>
    rw [show s.next p = x from hnext]
    refine (hmem x).mp ?_
    have hx : x ∈ (a ++ p :: x :: b).tail := by
      cases a <;> simp
    rwa [← hsplit] at hx

lemma inv_advance (h : Inv hash s) (hs : advance hash s t = some s') :
    Inv hash s' := by
  have hstanding := h.standing t
  rw [advance] at hs
  cases hpc : s.pc t with
  | idle => simp [hpc] at hs
  | load m p =>
    have hm : owned (s.pc t) = some m := by rw [hpc]; rfl
    rw [hpc] at hs hstanding
    obtain rfl := Option.some.inj hs
    split_ifs with hstop
    · refine inv_goto h (by rw [hpc]; rfl) ⟨hstanding, ?_⟩
      by_cases hzero : s.next p = 0
      · exact .inl hzero
      · have hplaced := h.placed_next hstanding hzero
        refine .inr ⟨hplaced, ?_⟩
        -- tickets differ, since the node of this call is in no list
        have hne : s.next p ≠ m := fun heq => hplaced.2.2.2 t (heq ▸ hm)
        have hseq := h.sequenceNumber hplaced.1 hplaced.2.1
        have hseq' := h.sequenceNumber (h.fresh t m hm).1 (h.fresh t m hm).2
        exact (of_decide_eq_true (hstop.resolve_left hzero)).imp id fun ⟨heq, hle⟩ =>
          ⟨heq.symm, by omega⟩
    · obtain ⟨hzero, hge⟩ := not_or.mp hstop
      have hplaced := h.placed_next hstanding hzero
      refine inv_goto h (by rw [hpc]; rfl) (.inr ⟨hplaced, ?_⟩)
      simp only [Node.ge, decide_eq_true_eq, not_or, not_lt, not_and, not_le] at hge
      exact (lt_or_eq_of_le hge.1).imp id fun heq => ⟨heq, hge.2 heq⟩
  | store m p d =>
    rw [hpc] at hs
    obtain rfl := Option.some.inj hs
    exact inv_store h hpc
  | exchange m p d =>
    rw [hpc] at hs
    obtain rfl := Option.some.inj hs
    split_ifs with hd
    · exact inv_exchange h hpc hd
    · exact inv_goto h (by rw [hpc]; rfl) (.inl rfl)

lemma inv_step (h : Inv hash s) {op : Op A T} (hs : step hash s op = some s') :
    Inv hash s' := by
  cases op with
  | call t address tag =>
    rw [step] at hs
    split at hs
    next hidle =>
      obtain rfl := Option.some.inj hs
      exact inv_call h hidle address tag
    next => cases hs
  | advance t => exact inv_advance h hs

omit [DecidableEq T] in
lemma inv_new {n : ℕ} (hash : A → Fin n) (record : Node A) :
    Inv hash (new n record : Threads A T) where
  top := rfl
  inserted := rfl
  ticket k hk := absurd hk (Nat.not_lt_zero k)
  chains c hpos hc := ⟨[], ⟨rfl, hpos.ne', rfl⟩, List.Pairwise.nil, fun m =>
    iff_of_false not_mem_nil fun hm => absurd hm.1 (not_lt.mpr (Nat.lt_succ_iff.mp hm.2.1))⟩
  fresh t m hm := by cases hm
  unique t u m hm := by cases hm
  standing t := trivial

end Chains

section Iteration

variable {n : ℕ} {hash : A → Fin n}

def Earlier {n : ℕ} (hash : A → Fin n) (x y : Node A) : Prop :=
  bucket hash x.address < bucket hash y.address
    ∨ bucket hash x.address = bucket hash y.address ∧ Before x y

lemma Earlier.between {x y z : Node A} (hxy : Earlier hash x y) (hyz : Earlier hash y z)
    (heq : x.address = z.address) : y.address = z.address := by
  rw [Earlier, heq] at hxy
  unfold Earlier Before at *
  rcases hxy with hlt | ⟨hb, hxy⟩ <;> rcases hyz with hlt' | ⟨hb', hyz⟩
  · omega
  · omega
  · omega
  · rcases hxy with hxy | ⟨hxy, -⟩
    · rcases hyz with hyz | ⟨hyz, -⟩
      · exact absurd (heq ▸ hxy) hyz.not_gt
      · exact hyz
    · exact hxy.symm.trans heq

lemma Earlier.newer {x y : Node A} (h : Earlier hash x y) (heq : x.address = y.address) :
    y.sequenceNumber < x.sequenceNumber := by
  rcases h with hlt | ⟨-, hlt | ⟨-, hlt⟩⟩
  · rw [heq] at hlt
    exact absurd hlt (lt_irrefl _)
  · exact absurd heq hlt.ne
  · exact hlt

lemma mem_met {xs : List (Node A)} {key : Option A} {z : Node A}
    (hsorted : xs.Pairwise (Earlier hash))
    (hkey : ∀ k, key = some k → ∃ w : Node A, w.address = k ∧ ∀ y ∈ xs, Earlier hash w y) :
    z ∈ met key xs ↔
      z ∈ xs ∧ key ≠ some z.address ∧ ∀ y ∈ xs, y.address = z.address →
        y.sequenceNumber ≤ z.sequenceNumber := by
  induction xs generalizing key with
  | nil => simp [met]
  | cons x xs ih =>
    obtain ⟨hx, hxs⟩ := pairwise_cons.mp hsorted
    rw [met]
    split_ifs with hk
    · rw [ih hxs fun k hk => (hkey k hk).imp fun w hw =>
        ⟨hw.1, fun y hy => hw.2 y (mem_cons_of_mem _ hy)⟩]
      have hne : key ≠ some z.address → x.address ≠ z.address := fun hz heq => hz (heq ▸ hk)
      constructor
      · rintro ⟨hz, hzk, hmax⟩
        exact ⟨mem_cons_of_mem _ hz, hzk,
          forall_mem_cons.mpr ⟨fun heq => absurd heq (hne hzk), hmax⟩⟩
      · rintro ⟨hz, hzk, hmax⟩
        refine ⟨(mem_cons.mp hz).resolve_left ?_, hzk, (forall_mem_cons.mp hmax).2⟩
        rintro rfl
        exact hne hzk rfl
    · rw [mem_cons, ih hxs fun k hk => ⟨x, Option.some.inj hk, hx⟩]
      constructor
      · rintro (rfl | ⟨hz, hzx, hmax⟩)
        · exact ⟨mem_cons_self, hk, forall_mem_cons.mpr ⟨fun _ => le_rfl, fun y hy heq =>
            ((hx y hy).newer heq.symm).le⟩⟩
        · have hne : x.address ≠ z.address := fun heq => hzx (congrArg some heq)
          refine ⟨mem_cons_of_mem _ hz, fun hzk => ?_,
            forall_mem_cons.mpr ⟨fun heq => absurd heq hne, hmax⟩⟩
          obtain ⟨w, hw, hall⟩ := hkey _ hzk
          exact hne ((hall x mem_cons_self).between (hx z hz) hw)
      · rintro ⟨hz, -, hmax⟩
        refine (mem_cons.mp hz).imp id fun hz => ⟨hz, fun heq => ?_, (forall_mem_cons.mp hmax).2⟩
        have heq := Option.some.inj heq
        exact absurd ((forall_mem_cons.mp hmax).1 heq) (not_le.mpr ((hx z hz).newer heq))

lemma nodup_met {xs : List (Node A)} {key : Option A} (hsorted : xs.Pairwise (Earlier hash)) :
    ((met key xs).map Node.address).Nodup := by
  induction xs generalizing key with
  | nil => exact nodup_nil
  | cons x xs ih =>
    obtain ⟨hx, hxs⟩ := pairwise_cons.mp hsorted
    rw [met]
    split_ifs
    · exact ih hxs
    · refine nodup_cons.mpr ⟨fun hmem => ?_, ih hxs⟩
      obtain ⟨z, hz, heq⟩ := List.mem_map.mp hmem
      exact ((mem_met hxs fun k hk => ⟨x, Option.some.inj hk, hx⟩).mp hz).2.1
        (congrArg some heq.symm)

variable {s : Threads A T}

omit [DecidableEq T] in
lemma Inv.records_eq (h : Inv hash s) (hquiet : Quiet s) {i : ℕ} (hi : i < n) :
    (records s i).Pairwise Before ∧ ∀ x, x ∈ records s i ↔ x ∈ s.inserted ∧ bucket hash x.address =
      i + 1 := by
  obtain ⟨l, hlinked, hsorted, hmem⟩ := h.chains (i + 1) (Nat.succ_pos i) hi
  have htop := h.top
  have hlength : ((i + 1) :: l).length ≤ s.top := by
    rw [← length_range (n := s.top)]
    refine hlinked.nodup.length_le_of_subset fun m hm => mem_range.mpr ?_
    rcases mem_cons.mp hm with rfl | hm
    · omega
    · exact ((hmem m).mp hm).2.1
  have hrecords : records s i = l.map s.record := by
    rw [records, walk_eq hlinked.2.2 hlength]
  rw [hrecords]
  refine ⟨hsorted, fun x => ?_⟩
  rw [h.inserted]
  simp only [List.mem_map, mem_range, hmem]
  constructor
  · rintro ⟨m, ⟨hlow, hhigh, hbucket, -⟩, rfl⟩
    exact ⟨⟨m - (n + 1), by omega, by rw [Nat.add_sub_cancel' hlow]⟩, hbucket⟩
  · rintro ⟨⟨k, hk, rfl⟩, hbucket⟩
    exact ⟨_, ⟨by omega, by omega, hbucket, fun t => by rw [hquiet t]; exact some_ne_none _ ∘
      Eq.symm⟩, rfl⟩

omit [DecidableEq T] in
lemma Inv.linearised (h : Inv hash s) (hquiet : Quiet s) : Linearised hash s := by
  have hrecords := fun i hi => h.records_eq hquiet (i := i) hi
  have hsorted : (nodes n s).Pairwise (Earlier hash) := by
    refine pairwise_flatMap.mpr ⟨fun i hi => ?_, ?_⟩
    · obtain ⟨hpairs, hmem⟩ := hrecords i (mem_range.mp hi)
      refine hpairs.imp_of_mem fun hx hy hbefore => .inr ⟨?_, hbefore⟩
      rw [((hmem _).mp hx).2, ((hmem _).mp hy).2]
    · refine pairwise_lt_range.imp_of_mem fun hi hj hij x hx y hy => .inl ?_
      rw [(((hrecords _ (mem_range.mp hi)).2 x).mp hx).2,
        (((hrecords _ (mem_range.mp hj)).2 y).mp hy).2]
      exact Nat.succ_lt_succ hij
  have hmem : ∀ x, x ∈ nodes n s ↔ x ∈ s.inserted := fun x => by
    rw [nodes, mem_flatMap]
    constructor
    · rintro ⟨i, hi, hx⟩
      exact (((hrecords i (mem_range.mp hi)).2 x).mp hx).1
    · intro hx
      have hlt := (hash x.address).isLt
      exact ⟨_, mem_range.mpr hlt, ((hrecords _ hlt).2 x).mpr ⟨hx, rfl⟩⟩
  have hnodup : s.inserted.Nodup := by
    refine List.Nodup.of_map Node.sequenceNumber ?_
    have htickets : s.inserted.map Node.sequenceNumber = (List.range s.recordSequence).map id := by
      rw [h.inserted, List.map_map]
      exact map_congr_left fun k hk => h.ticket k (mem_range.mp hk)
    rw [htickets, List.map_id]
    exact nodup_range
  refine ⟨fun i hi => (hrecords i hi).1, fun i hi x hx => ?_, ?_, nodup_met hsorted, fun x => ?_⟩
  · exact Nat.succ_injective (((hrecords i hi).2 x).mp hx).2
  · refine (perm_ext_iff_of_nodup (hsorted.imp fun {x y} hxy => ?_) hnodup).mpr hmem
    rintro rfl
    exact lt_irrefl _ (hxy.newer rfl)
  · rw [mem_met hsorted (by simp), hmem]
    simp only [hmem, ne_eq, reduceCtorEq, not_false_eq_true, true_and]

/-- Whatever the threads and the order of their accesses, when all calls have returned the lists are
sorted and hold every record once. -/
theorem inserts_linearised {n : ℕ} (hash : A → Fin n) (record : Node A) (ops : List (Op A T))
    {s : Threads A T} (hrun : run (step hash) (new n record) ops = some s) (hquiet : Quiet s) :
    Linearised hash s :=
  (run_invariant (G := fun _ => True) (fun _ _ _ _ h hs => inv_step h hs) (inv_new hash record)
    (fun _ _ => trivial) hrun).linearised hquiet

def contended : List (Op ℕ Bool) :=
  [.call false 4 .record, .call true 4 .deletion, .advance false, .advance true, .advance false,
    .advance true, .advance false, .advance true, .advance true, .advance true, .advance true]

theorem inserts_linearised_contended :
    ∃ s, run (step (Fin.ofNat 2)) (new 2 ⟨0, 0, .record⟩) contended = some s ∧
      Linearised (Fin.ofNat 2) s := by
  have hrun : (run (step (Fin.ofNat 2)) (new 2 ⟨0, 0, .record⟩) contended).map
      (fun s => (s.pc false, s.pc true))
      = some (.idle, .idle) := by decide +kernel
  obtain ⟨s, hs, hpc⟩ := map_eq_some_iff.mp hrun
  obtain ⟨hfalse, htrue⟩ := Prod.mk.inj hpc
  exact ⟨s, hs, inserts_linearised (Fin.ofNat 2) ⟨0, 0, .record⟩ contended hs fun t =>
    by cases t <;> assumption⟩

/-- At every moment the list of a bucket is sorted and holds the nodes that no running call has
still to link. -/
theorem chains_linked {n : ℕ} (hash : A → Fin n) (record : Node A) (ops : List (Op A T))
    {s : Threads A T} (hrun : run (step hash) (new n record) ops = some s) {c : ℕ} (hpos : 0 < c)
    (hle : c ≤ n) :
    ∃ l, Linked s.next c (c :: l) ∧ (l.map s.record).Pairwise Before ∧ ∀ m, m ∈ l ↔
      Placed hash s c m :=
  (run_invariant (G := fun _ => True) (fun _ _ _ _ h hs => inv_step h hs) (inv_new hash record)
    (fun _ _ => trivial) hrun).chains c hpos hle

theorem chains_linked_contended :
    ∃ s l, run (step (Fin.ofNat 2)) (new 2 ⟨0, 0, .record⟩) (contended.take 7) = some s ∧
    Linked s.next 1 (1 :: l) ∧ ∀ m, m ∈ l ↔ Placed (Fin.ofNat 2) s 1 m := by
  have hrun := some_get (x := run (step (Fin.ofNat 2)) (new 2 ⟨0, 0, .record⟩) (contended.take 7))
    (by decide +kernel)
  obtain ⟨l, hlinked, -, hplaced⟩ :=
    chains_linked (Fin.ofNat 2) ⟨0, 0, .record⟩ (contended.take 7) hrun.symm
    Nat.one_pos one_le_two
  exact ⟨_, l, hrun.symm, hlinked, hplaced⟩

end Iteration

end Mai.LangRememberThreads
