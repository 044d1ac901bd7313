import Mai.RunInvariant
import Mai.DbVersion

/-! Concurrent writers (`DBImpl::WriteImpl`, `DBImpl::MakeRoomForWrite`). A thread holds the mutex
from the moment it reads the last sequence number until it returns, except while it waits on a
family's condition variable. -/
namespace Mai.DbWriters
open RunInvariant DbVersion

structure Room where
  backgroundError : Bool
  mutableFull : Bool
  immutableInProgress : Bool
  backgroundProgress : Bool
  numberLevel0Files : ℕ
  deriving DecidableEq, Repr

inductive Decision
  | fail
  | proceed
  | wait
  | renew
  deriving DecidableEq, Repr

def makeRoomForWrite (r : Room) : Decision :=
  if r.backgroundError then .fail
  else if !r.mutableFull then .proceed
  else if r.immutableInProgress then .proceed
  else if r.backgroundProgress ∧ kMaxNumberLevel0File < r.numberLevel0Files then .wait
  else .renew

/-- Where a thread is in `WriteImpl`: it carries the size of its batch, the sequence number it read
on entry and the position in the list of families. -/
inductive Phase
  | idle
  | makingRoom (count lastVersion position : ℕ)
  | waiting (count lastVersion position : ℕ)
  deriving DecidableEq, Repr

/-- The sequence numbers given to the entries of an applied batch start at `first`. -/
structure Batch where
  first : ℕ
  count : ℕ
  deriving DecidableEq, Repr

structure Writers (T : Type*) where
  lastSequenceNumber : ℕ
  holder : Option T
  phase : T → Phase
  bkgError : Bool
  numberFamilies : ℕ
  room : ℕ → Room
  applied : List Batch

inductive Action (T : Type*)
  /-- Lock the mutex and read the last sequence number. -/
  | enter (t : T) (count : ℕ)
  /-- One iteration for the family at the thread's position; `ok` is the result of renewing the
  log. -/
  | makeRoom (t : T) (ok : Bool)
  /-- Return from the wait with the mutex locked again. -/
  | wake (t : T)
  /-- Append to the log and apply the batch, or return an error. -/
  | apply (t : T) (ok : Bool)
  /-- Background work and everything else that changes what the writers look at. -/
  | background (bkgError : Bool) (numberFamilies : ℕ) (room : ℕ → Room)

section Steps
variable {T : Type*} [DecidableEq T] {s u : Writers T} {t : T} {initial : ℕ}

def Writers.setPhase (s : Writers T) (t : T) (p : Phase) (holder : Option T) : Writers T :=
  { s with phase := Function.update s.phase t p, holder := holder }

def Writers.renew (s : Writers T) (position : ℕ) : Writers T :=
  let r := { s.room position with mutableFull := false, immutableInProgress := true }
  { s with room := Function.update s.room position r }

def Writers.makeRoom (s : Writers T) (t : T) (ok : Bool) : Option (Writers T) :=
  match s.phase t with
  | .makingRoom count lastVersion position =>
    if s.holder = some t ∧ position < s.numberFamilies then
      if s.bkgError then some (s.setPhase t .idle none)
      else
        match makeRoomForWrite (s.room position) with
        | .fail => some (s.setPhase t .idle none)
        | .proceed => some (s.setPhase t (.makingRoom count lastVersion (position + 1)) (some t))
        | .wait => some (s.setPhase t (.waiting count lastVersion position) none)
        | .renew => if ok then some (s.renew position) else some (s.setPhase t .idle none)
    else none
  | _ => none

def Writers.apply (s : Writers T) (t : T) (ok : Bool) : Option (Writers T) :=
  match s.phase t with
  | .makingRoom count lastVersion position =>
    if s.holder = some t ∧ s.numberFamilies ≤ position then
      if ok then some { s.setPhase t .idle none with
        lastSequenceNumber := s.lastSequenceNumber + count
        applied := s.applied ++ [⟨lastVersion + 1, count⟩] }
      else some (s.setPhase t .idle none)
    else none
  | _ => none

def step (s : Writers T) : Action T → Option (Writers T)
  | .enter t count =>
    if s.holder = none ∧ s.phase t = .idle then
      some (s.setPhase t (.makingRoom count s.lastSequenceNumber 0) (some t))
    else none
  | .makeRoom t ok => s.makeRoom t ok
  | .wake t =>
    match s.phase t with
    | .waiting count lastVersion position =>
      if s.holder = none then
        some (s.setPhase t (.makingRoom count lastVersion (position + 1)) (some t))
      else none
    | _ => none
  | .apply t ok => s.apply t ok
  | .background bkgError numberFamilies room =>
    some { s with bkgError := bkgError, numberFamilies := numberFamilies, room := room }

def Phase.lastVersion : Phase → Option ℕ
  | .idle => none
  | .makingRoom _ lastVersion _ => some lastVersion
  | .waiting _ lastVersion _ => some lastVersion

def Quiet (s u : Writers T) : Prop :=
  u.lastSequenceNumber = s.lastSequenceNumber ∧ u.applied = s.applied ∧
    ∀ t v, (u.phase t).lastVersion = some v →
      (s.phase t).lastVersion = some v ∨ v = s.lastSequenceNumber

lemma quiet_setPhase {s : Writers T} {p : Phase} {h : Option T}
    (hp : ∀ v, p.lastVersion = some v → (s.phase t).lastVersion = some v ∨
      v = s.lastSequenceNumber) :
    Quiet s (s.setPhase t p h) := by
  refine ⟨rfl, rfl, fun x v hv => ?_⟩
  by_cases hx : x = t
  · subst hx
    exact hp v (by simpa [Writers.setPhase] using hv)
  · exact Or.inl (by simpa [Writers.setPhase, hx] using hv)

lemma quiet_makeRoom {ok : Bool} (h : s.makeRoom t ok = some u) : Quiet s u := by
  unfold Writers.makeRoom at h
  cases hp : s.phase t with
  | idle => simp [hp] at h
  | waiting count lastVersion position => simp [hp] at h
  | makingRoom count lastVersion position =>
    have hidle : Quiet s (s.setPhase t .idle none) := quiet_setPhase (by simp [Phase.lastVersion])
    have hnext : Quiet s (s.setPhase t (.makingRoom count lastVersion (position + 1)) (some t)) :=
      quiet_setPhase fun v hv => Or.inl (by simpa [hp, Phase.lastVersion] using hv)
    have hwait : Quiet s (s.setPhase t (.waiting count lastVersion position) none) :=
      quiet_setPhase fun v hv => Or.inl (by simpa [hp, Phase.lastVersion] using hv)
    have hrenew : Quiet s (s.renew position) := ⟨rfl, rfl, fun _ _ hv => Or.inl hv⟩
    simp only [hp] at h
    cases hd : makeRoomForWrite (s.room position) <;> rw [hd] at h <;> simp only at h <;>
      split_ifs at h <;> rwa [← Option.some.inj h]

def Applies (s u : Writers T) (t : T) (count lastVersion : ℕ) : Prop :=
  (∃ position, s.phase t = .makingRoom count lastVersion position) ∧
    u.lastSequenceNumber = s.lastSequenceNumber + count ∧
    u.applied = s.applied ++ [⟨lastVersion + 1, count⟩] ∧
    ∀ t v, (u.phase t).lastVersion = some v → (s.phase t).lastVersion = some v

lemma step_apply {ok : Bool} (h : s.apply t ok = some u) :
    if ok then ∃ count lastVersion, Applies s u t count lastVersion else Quiet s u := by
  unfold Writers.apply at h
  cases hp : s.phase t with
  | idle => simp [hp] at h
  | waiting count lastVersion position => simp [hp] at h
  | makingRoom count lastVersion position =>
    simp only [hp] at h
    split_ifs at h with hlock hok
    · refine if_pos hok ▸ ⟨count, lastVersion, ⟨position, hp⟩, ?_⟩
      rw [← Option.some.inj h]
      refine ⟨rfl, rfl, fun x v hv => ?_⟩
      by_cases hx : x = t
      · subst hx
        simp [Writers.setPhase, Phase.lastVersion] at hv
      · simpa [Writers.setPhase, hx] using hv
    · rw [if_neg hok, ← Option.some.inj h]
      exact quiet_setPhase (by simp [Phase.lastVersion])

lemma step_cases {a : Action T} (h : step s a = some u) :
    Quiet s u ∧ (∀ t, a ≠ .apply t true) ∨
      ∃ t count lastVersion, a = .apply t true ∧ Applies s u t count lastVersion := by
  cases a with
  | enter t count =>
    simp only [step] at h
    split_ifs at h
    rw [← Option.some.inj h]
    exact Or.inl ⟨quiet_setPhase fun v hv => Or.inr (by simpa [Phase.lastVersion] using hv.symm),
      by simp⟩
  | makeRoom t ok => exact Or.inl ⟨quiet_makeRoom h, by simp⟩
  | wake t =>
    simp only [step] at h
    cases hp : s.phase t with
    | idle => simp [hp] at h
    | makingRoom count lastVersion position => simp [hp] at h
    | waiting count lastVersion position =>
      simp only [hp] at h
      split_ifs at h
      rw [← Option.some.inj h]
      exact Or.inl ⟨quiet_setPhase fun v hv => Or.inl (by simpa [hp, Phase.lastVersion] using hv),
        by simp⟩
  | apply t ok =>
    have hcases := step_apply h
    cases ok with
    | false => exact Or.inl ⟨hcases, by simp⟩
    | true =>
      obtain ⟨count, lastVersion, happ⟩ := hcases
      exact Or.inr ⟨t, count, lastVersion, rfl, happ⟩
  | background bkgError numberFamilies room =>
    simp only [step, Option.some.injEq] at h
    rw [← h]
    exact Or.inl ⟨⟨rfl, rfl, fun _ _ hv => Or.inl hv⟩, by simp⟩

def Batch.numbers (b : Batch) : Set ℕ := {x | b.first ≤ x ∧ x < b.first + b.count}

/-- The numbers assigned so far, with `initial` as the greatest one of the time before. -/
def assigned (initial : ℕ) (s : Writers T) : Set ℕ :=
  {x | x = initial ∨ ∃ b ∈ s.applied, x ∈ b.numbers}

structure NeverReused (initial : ℕ) (s : Writers T) : Prop where
  disjoint : s.applied.Pairwise fun a b => Disjoint a.numbers b.numbers
  increasing : s.applied.Pairwise fun a b => ∀ x ∈ a.numbers, ∀ y ∈ b.numbers, x < y
  latest : IsGreatest (assigned initial s) s.lastSequenceNumber

def AppliesFresh (s : Writers T) (a : Action T) : Prop :=
  ∀ t count lastVersion position, a = .apply t true →
    s.phase t = .makingRoom count lastVersion position →
    count = 0 ∨ s.lastSequenceNumber = lastVersion

def ReadsBelow (s : Writers T) : Prop :=
  ∀ t v, (s.phase t).lastVersion = some v → v ≤ s.lastSequenceNumber

lemma readsBelow_step {a : Action T} (hs : ReadsBelow s) (h : step s a = some u) :
    ReadsBelow u := by
  intro t v hv
  rcases step_cases h with ⟨⟨hlast, -, hphase⟩, -⟩ | ⟨x, count, w, -, -, hlast, -, hphase⟩
  · rw [hlast]
    rcases hphase t v hv with hv | rfl
    · exact hs t v hv
    · exact le_rfl
  · rw [hlast]
    exact (hs t v (hphase t v hv)).trans (Nat.le_add_right _ _)

omit [DecidableEq T] in
lemma assigned_apply {count lastVersion : ℕ}
    (h : Applies s u t count lastVersion) {x : ℕ} : x ∈ assigned initial u ↔
      x ∈ assigned initial s ∨ lastVersion + 1 ≤ x ∧ x < lastVersion + 1 + count := by
  obtain ⟨-, -, happ, -⟩ := h
  simp only [assigned, happ, Set.mem_ofPred_eq, List.mem_append, List.mem_singleton, or_and_right,
    exists_or, exists_eq_left, Batch.numbers, or_assoc]

omit [DecidableEq T] in
lemma neverReused_apply {count lastVersion : ℕ}
    (hs : NeverReused initial s) (hr : ReadsBelow s) (h : Applies s u t count lastVersion) :
    NeverReused initial u ↔ count = 0 ∨ s.lastSequenceNumber = lastVersion := by
  obtain ⟨⟨position, hphase⟩, hlast, happ, -⟩ := id h
  have hle : lastVersion ≤ s.lastSequenceNumber :=
    hr t lastVersion (by simp [hphase, Phase.lastVersion])
  constructor
  · intro hu
    have hmem := hu.latest.1
    rw [assigned_apply h, hlast] at hmem
    rcases hmem with hmem | hmem
    · have hmax := hs.latest.2 hmem
      omega
    · omega
  · intro hc
    have hnew : ∀ x, lastVersion + 1 ≤ x ∧ x < lastVersion + 1 + count → s.lastSequenceNumber < x ∧
        x ≤ s.lastSequenceNumber + count := by
      intro x hx
      omega
    have hold : ∀ b ∈ s.applied, ∀ x ∈ b.numbers, x ≤ s.lastSequenceNumber := fun b hb x hx =>
      hs.latest.2 (Or.inr ⟨b, hb, hx⟩)
    have hinc : ∀ b ∈ s.applied, ∀ x ∈ b.numbers,
        ∀ y ∈ (⟨lastVersion + 1, count⟩ : Batch).numbers, x < y := fun b hb x hx y hy =>
      (hold b hb x hx).trans_lt (hnew y hy).1
    refine ⟨?_, ?_, ?_, ?_⟩
    · rw [happ]
      refine List.pairwise_append.mpr ⟨hs.disjoint, List.pairwise_singleton _ _,
        fun b hb c hc => ?_⟩
      obtain rfl := List.mem_singleton.mp hc
      exact Set.disjoint_left.mpr fun x hx hy => lt_irrefl x (hinc b hb x hx x hy)
    · rw [happ]
      refine List.pairwise_append.mpr ⟨hs.increasing, List.pairwise_singleton _ _,
        fun b hb c hc => ?_⟩
      obtain rfl := List.mem_singleton.mp hc
      exact hinc b hb
    · rw [assigned_apply h, hlast]
      rcases Nat.eq_zero_or_pos count with h0 | hpos
      · exact Or.inl (by simpa [h0] using hs.latest.1)
      · exact Or.inr (by omega)
    · intro x hx
      rw [assigned_apply h] at hx
      rw [hlast]
      rcases hx with hx | hx
      · exact (hs.latest.2 hx).trans (Nat.le_add_right _ _)
      · exact (hnew x hx).2

omit [DecidableEq T] in
lemma neverReused_quiet (h : Quiet s u) :
    NeverReused initial u ↔ NeverReused initial s := by
  obtain ⟨hlast, happ, -⟩ := h
  have hset : assigned initial u = assigned initial s := by simp [assigned, happ]
  constructor
  · rintro ⟨hd, hi, hl⟩
    exact ⟨happ ▸ hd, happ ▸ hi, by rwa [← hset, ← hlast]⟩
  · rintro ⟨hd, hi, hl⟩
    exact ⟨by rwa [happ], by rwa [happ], by rwa [hset, hlast]⟩

/-- In a run of any number of threads from a state without writers, sequence numbers are never
reused exactly when every batch with entries is applied while the last sequence number is the one
its thread read on entry. -/
theorem neverReused_iff (s : Writers T) (hidle : ∀ t, s.phase t = .idle) (hnone : s.applied = [])
    (as : List (Action T)) :
    Always step (NeverReused s.lastSequenceNumber) s as ↔ EachStep step AppliesFresh s as := by
  refine always_iff_eachStep (I := ReadsBelow) (G := fun _ _ => True)
    (fun s a u _ hs h => readsBelow_step hs h) (fun s a u _ hr hs h => ?_)
      (eachStep_of_forall fun _ _ _ => trivial) ?_ ?_
  · rcases step_cases h with ⟨hq, hne⟩ | ⟨t, count, v, rfl, happ⟩
    · exact iff_of_true ((neverReused_quiet hq).mpr hs) fun t _ _ _ ha => absurd ha (hne t)
    · rw [neverReused_apply hs hr happ]
      obtain ⟨position, hphase⟩ := happ.1
      constructor
      · intro hc x count' v' position' ha hp
        cases ha
        rw [hphase] at hp
        cases hp
        exact hc
      · exact fun hc => hc t count v position rfl hphase
  · intro t v hv
    simp [hidle t, Phase.lastVersion] at hv
  · refine ⟨by simp [hnone], by simp [hnone], Or.inl rfl, fun x hx => ?_⟩
    rcases hx with rfl | ⟨b, hb, -⟩
    · exact le_rfl
    · simp [hnone] at hb

end Steps

def fullLevel0 : Writers Bool where
  lastSequenceNumber := 0
  holder := none
  phase := fun _ => .idle
  bkgError := false
  numberFamilies := 1
  room := fun _ => ⟨false, true, false, true, 11⟩
  applied := []

def wokenInTurn : List (Action Bool) :=
  [.enter false 1, .makeRoom false true, .enter true 1, .makeRoom true true,
    .wake false, .apply false true, .wake true, .apply true true]

/-- Two writers that wait in turn number their batches from the same place. -/
theorem wokenInTurn_reuses : (run step fullLevel0 wokenInTurn).map
    (fun s => (s.applied, s.lastSequenceNumber)) = some ([⟨1, 1⟩, ⟨1, 1⟩], 2) := by
  decide

theorem alone_neverReused : Always step (NeverReused 0) fullLevel0
    [.enter false 1, .makeRoom false true, .wake false, .apply false true] := by
  refine (neverReused_iff fullLevel0 (fun _ => rfl) rfl _).mpr ?_
  refine eachStep_cons.mpr fun s₁ h₁ => ⟨fun _ _ _ _ h => (by cases h), ?_⟩
  obtain rfl := Option.some.inj h₁
  refine eachStep_cons.mpr fun s₂ h₂ => ⟨fun _ _ _ _ h => (by cases h), ?_⟩
  obtain rfl := Option.some.inj h₂
  refine eachStep_cons.mpr fun s₃ h₃ => ⟨fun _ _ _ _ h => (by cases h), ?_⟩
  obtain rfl := Option.some.inj h₃
  refine eachStep_cons.mpr fun s₄ h₄ => ⟨fun t count lastVersion position h hp => ?_, eachStep_nil⟩
  cases h
  cases hp
  exact Or.inr rfl

end Mai.DbWriters
