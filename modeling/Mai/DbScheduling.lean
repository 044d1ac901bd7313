import Mai.CoreKeys
import Mai.DbWriters

/-! Scheduling of background jobs (`MakeRoomForWrite`, `MaybeScheduleCompaction`, `BackgroundWork`
of `db/db-impl.cc`). A step is what runs under the database mutex, or one access to a shared
variable where `BackgroundWork` does not hold it. -/
namespace Mai.DbScheduling
open CoreKeys RunInvariant List

/-- What scheduling looks at in a column family; `immutables` counts the tables of the immutable
pipeline. -/
structure Family where
  immutables : ℕ
  needsCompaction : Bool
  backgroundProgress : Bool
  backgroundError : Option Error
  dropped : Bool

/-- Where a call of `BackgroundWork` is: it has not started `BackgroundCompaction`, is in the loop
of `CompactMemoryTable`, in the rest of `BackgroundCompaction`, behind it, behind `fetch_sub`,
behind `set_background_progress(false)`, or has found `bkg_active_` to be zero in
`MaybeScheduleCompaction`. -/
inductive Phase
  | scheduled
  | flushing
  | compacting
  | done
  | subtracted
  | cleared
  | asking
  deriving DecidableEq, Repr

def Phase.active : Phase → Bool
  | .scheduled => true
  | .flushing => true
  | .compacting => true
  | .done => true
  | _ => false

structure Job (F : Type*) where
  family : F
  phase : Phase

structure State (F : Type*) where
  families : F → Option Family
  jobs : List (Job F)
  bkgActive : ℕ
  shuttingDown : Bool

variable {F : Type*}

namespace State

/-- The phase of a job in which `Peek` finds these many tables in the pipeline. -/
def peeked (immutables : ℕ) : Phase := if immutables = 0 then .compacting else .flushing

def withJob (s : State F) (n : ℕ) (phase : Phase) (next : Job F → State F) : Option (State F) :=
  s.jobs[n]?.bind fun job => if job.phase = phase then some (next job) else none

def setPhase (s : State F) (n : ℕ) (f : F) (phase : Phase) : State F :=
  { s with jobs := s.jobs.set n ⟨f, phase⟩ }

def immutables (s : State F) (f : F) : ℕ := ((s.families f).map Family.immutables).getD 0

variable [DecidableEq F]

def updateFamily (s : State F) (f : F) (update : Family → Family) : State F :=
  { s with families := Function.update s.families f ((s.families f).map update) }

def scheduleIfNeeded (s : State F) (f : F) : State F :=
  match s.families f with
  | none => s
  | some c =>
    if s.shuttingDown then s
    else if c.immutables = 0 ∧ c.needsCompaction = false then s
    else
      { s.updateFamily f fun c => { c with backgroundProgress := true } with
        bkgActive := s.bkgActive + 1
        jobs := s.jobs ++ [⟨f, .scheduled⟩] }

def maybeScheduleCompaction (s : State F) (f : F) : State F :=
  if 0 < s.bkgActive then s else s.scheduleIfNeeded f

def makeImmutablePipeline (s : State F) (f : F) : State F :=
  s.updateFamily f fun c => { c with immutables := c.immutables + 1 }

/-- What `MakeRoomForWrite` sees of a family besides the size of its memory table and of its level
0. -/
def room (c : Family) (mutableFull : Bool) (numberLevel0Files : ℕ) : DbWriters.Room where
  backgroundError := c.backgroundError.isSome
  mutableFull := mutableFull
  immutableInProgress := 0 < c.immutables
  backgroundProgress := c.backgroundProgress
  numberLevel0Files := numberLevel0Files

/-- `MakeRoomForWrite` puts the memory table of the family into the pipeline. -/
def switches (s : State F) (f : F) (mutableFull : Bool) (numberLevel0Files : ℕ) : Bool :=
  (s.families f).any fun c =>
    DbWriters.makeRoomForWrite (room c mutableFull numberLevel0Files) = .renew

def makeRoomForWrite (s : State F) (f : F) (mutableFull : Bool) (numberLevel0Files : ℕ) : State F :=
  if s.switches f mutableFull numberLevel0Files
    then (s.makeImmutablePipeline f).maybeScheduleCompaction f else s

end State

inductive Action (F : Type*)
  | newColumnFamily (f : F)
  | dropColumnFamily (f : F)
  | makeRoomForWrite (f : F) (mutableFull : Bool) (numberLevel0Files : ℕ)
  | startJob (n : ℕ)
  | flushTable (n : ℕ) (needsCompaction : Bool)
  | flushFails (n : ℕ) (e : Error)
  | compactFiles (n : ℕ) (result : Except Error Unit) (needsCompaction : Bool)
  | subtractActive (n : ℕ)
  | clearProgress (n : ℕ)
  | loadActive (n : ℕ)
  | schedule (n : ℕ)
  | shutDown

namespace State

def step [DecidableEq F] (s : State F) : Action F → Option (State F)
  | .newColumnFamily f =>
    if (s.families f).isNone then some { s with
      families := Function.update s.families f (some ⟨0, false, false, none, false⟩) }
    else none
  | .dropColumnFamily f =>
    if (s.families f).any fun c => !c.dropped && !c.backgroundProgress then
      some (s.updateFamily f fun c => { c with dropped := true })
    else none
  | .makeRoomForWrite f mutableFull numberLevel0Files =>
    some (s.makeRoomForWrite f mutableFull numberLevel0Files)
  | .startJob n => s.withJob n .scheduled fun job =>
    s.setPhase n job.family (if s.shuttingDown then .done else peeked (s.immutables job.family))
  | .flushTable n needsCompaction => s.withJob n .flushing fun job =>
    (s.updateFamily job.family fun c => { c with
      immutables := c.immutables - 1
      needsCompaction := needsCompaction }).setPhase n job.family
        (peeked (s.immutables job.family - 1))
  | .flushFails n e => s.withJob n .flushing fun job =>
    (s.updateFamily job.family fun c => { c with backgroundError := some e }).setPhase n job.family
      .done
  | .compactFiles n result needsCompaction => s.withJob n .compacting fun job =>
    (s.updateFamily job.family fun c => { c with
      needsCompaction := needsCompaction
      backgroundError := match result with
        | .ok () => c.backgroundError
        | .error e => some e }).setPhase n job.family .done
  | .subtractActive n => s.withJob n .done fun job =>
    { s.setPhase n job.family .subtracted with bkgActive := s.bkgActive - 1 }
  | .clearProgress n => s.withJob n .subtracted fun job =>
    (s.updateFamily job.family fun c => { c with backgroundProgress := false }).setPhase n
      job.family .cleared
  | .loadActive n => s.withJob n .cleared fun job =>
    if 0 < s.bkgActive then { s with jobs := s.jobs.eraseIdx n }
    else s.setPhase n job.family .asking
  | .schedule n => s.withJob n .asking fun job =>
    State.scheduleIfNeeded { s with jobs := s.jobs.eraseIdx n } job.family
  | .shutDown => some { s with shuttingDown := true }

def opened (needsCompaction : F → Option Bool) : State F where
  families := fun f => (needsCompaction f).map fun needs => ⟨0, needs, false, none, false⟩
  jobs := []
  bkgActive := 0
  shuttingDown := false

end State

def Waiting (s : State F) (f : F) : Prop := s.shuttingDown = false ∧
  ∃ c, s.families f = some c ∧ c.dropped = false ∧ c.backgroundError = none ∧ 0 < c.immutables

/-- A job is active, or one of the family itself has yet to come to `MaybeScheduleCompaction`. -/
def NoOrphan (s : State F) : Prop := ∀ f, Waiting s f →
  0 < s.bkgActive ∨ ∃ job ∈ s.jobs, job.family = f ∧ job.phase.active = false

/-- When `MaybeScheduleCompaction` is called for a family that waits and finds a job active, one of
the family itself is among the given ones. -/
def Served (s : State F) (jobs : List (Job F)) (f : F) : Prop :=
  Waiting s f → 0 < s.bkgActive → ∃ job ∈ jobs, job.family = f

/-- The jobs that keep a call of `MaybeScheduleCompaction` from starting one belong to the same
family. -/
def AsksInTurn [DecidableEq F] (s : State F) : Action F → Prop
  | .makeRoomForWrite f mutableFull numberLevel0Files =>
    s.switches f mutableFull numberLevel0Files = true → Served (s.makeImmutablePipeline f) s.jobs f
  | .loadActive n => ∀ job, s.jobs[n]? = some job → Served s (s.jobs.eraseIdx n) job.family
  | _ => True

section Invariant
open State

/-- `bkg_active_` counts the active jobs, and a family that waits has a job of its own. -/
structure Inv (s : State F) : Prop where
  count : s.bkgActive = s.jobs.countP fun job => job.phase.active
  served : ∀ f, Waiting s f → ∃ job ∈ s.jobs, job.family = f

variable {s s' : State F} {f g : F} {n : ℕ} {job : Job F} {phase : Phase}

lemma inv_opened (needsCompaction : F → Option Bool) : Inv (State.opened needsCompaction) := by
  refine ⟨rfl, ?_⟩
  rintro f ⟨-, c, hc, -, -, hpos⟩
  obtain ⟨needs, -, rfl⟩ := Option.map_eq_some_iff.mp hc
  exact absurd hpos (lt_irrefl 0)

lemma Inv.noOrphan (h : Inv s) : NoOrphan s := by
  intro f hf
  obtain ⟨job, hjob, hfam⟩ := h.served f hf
  cases hphase : job.phase.active with
  | false => exact Or.inr ⟨job, hjob, hfam, hphase⟩
  | true =>
    rw [h.count]
    exact Or.inl (countP_pos_iff.mpr ⟨job, hjob, hphase⟩)

lemma split_job (h : s.jobs[n]? = some job) :
    ∃ l r, s.jobs = l ++ job :: r ∧ (∀ job', s.jobs.set n job' = l ++ job' :: r) ∧
    s.jobs.eraseIdx n = l ++ r := by
  obtain ⟨hn, rfl⟩ := List.getElem?_eq_some_iff.mp h
  refine ⟨s.jobs.take n, s.jobs.drop (n + 1), ?_, fun job' => ?_, eraseIdx_eq_take_drop_succ ..⟩
  · rw [getElem_cons_drop, take_append_drop]
  · rw [set_eq_take_append_cons_drop, if_pos hn]

lemma Inv.moved (h : Inv s) (hjob : s.jobs[n]? = some job)
    (hjobs : s'.jobs = s.jobs.set n ⟨job.family, phase⟩)
    (hactive : phase.active = job.phase.active ∧ s'.bkgActive = s.bkgActive ∨
      job.phase.active = true ∧ phase.active = false ∧ s'.bkgActive = s.bkgActive - 1)
    (hwaiting : ∀ f, Waiting s' f → Waiting s f) : Inv s' := by
  obtain ⟨l, r, hsplit, hset, -⟩ := split_job hjob
  rw [hset] at hjobs
  refine ⟨?_, fun f hf => ?_⟩
  · have hcount := h.count
    rw [hsplit] at hcount
    simp only [hjobs, countP_append, countP_cons] at hcount ⊢
    rcases hactive with ⟨hsame, hactive⟩ | ⟨hbefore, hafter, hactive⟩
    · rw [hactive, hcount, hsame]
    · rw [hactive, hcount, hbefore, hafter]
      simp
  · obtain ⟨job', hmem, hfam⟩ := h.served f (hwaiting f hf)
    rw [hjobs]
    rw [hsplit] at hmem
    rcases mem_append.mp hmem with hmem | hmem
    · exact ⟨job', by simp [hmem], hfam⟩
    · rcases mem_cons.mp hmem with rfl | hmem
      · exact ⟨⟨job'.family, phase⟩, by simp, hfam⟩
      · exact ⟨job', by simp [hmem], hfam⟩

lemma Inv.removed (h : Inv s) (hjob : s.jobs[n]? = some job) (hphase : job.phase.active = false) :
    s.bkgActive = (s.jobs.eraseIdx n).countP (fun job => job.phase.active) ∧
      ∀ f, f ≠ job.family → Waiting s f → ∃ job' ∈ s.jobs.eraseIdx n, job'.family = f := by
  obtain ⟨l, r, hsplit, -, herase⟩ := split_job hjob
  rw [herase]
  refine ⟨by simp [h.count, hsplit, hphase], fun f hfam hf => ?_⟩
  obtain ⟨job', hmem, hfam'⟩ := h.served f hf
  refine ⟨job', ?_, hfam'⟩
  rw [hsplit] at hmem
  rcases mem_append.mp hmem with hmem | hmem
  · exact mem_append_left _ hmem
  · rcases mem_cons.mp hmem with rfl | hmem
    · exact absurd hfam'.symm hfam
    · exact mem_append_right _ hmem

lemma peeked_active (immutables : ℕ) : (peeked immutables).active = true := by
  rw [peeked]
  split_ifs <;> rfl

lemma withJob_eq_some {next : Job F → State F} (h : s.withJob n phase next = some s') :
    ∃ job, s.jobs[n]? = some job ∧ job.phase = phase ∧ next job = s' := by
  obtain ⟨job, hjob, h⟩ := Option.bind_eq_some_iff.mp h
  split_ifs at h with hphase
  exact ⟨job, hjob, hphase, Option.some.inj h⟩

variable [DecidableEq F] {update : Family → Family}

lemma Waiting.of_updateFamily
    (hupdate : ∀ c, (update c).dropped = false → (update c).backgroundError = none →
      0 < (update c).immutables →
      c.dropped = false ∧ c.backgroundError = none ∧ 0 < c.immutables) (h :
        Waiting (s.updateFamily f update) g) :
    Waiting s g := by
  obtain ⟨hup, c, hc, hlive, herror, hpos⟩ := h
  refine ⟨hup, ?_⟩
  by_cases hg : g = f
  · subst hg
    obtain ⟨c', hc', rfl⟩ : ∃ c', s.families g = some c' ∧ update c' = c := by
      simpa [updateFamily] using hc
    exact ⟨c', hc', hupdate c' hlive herror hpos⟩
  · exact ⟨c, by simpa [updateFamily, hg] using hc, hlive, herror, hpos⟩

lemma Waiting.of_ne (hg : g ≠ f) (h : Waiting (s.updateFamily f update) g) : Waiting s g := by
  obtain ⟨hup, c, hc, hrest⟩ := h
  exact ⟨hup, c, by simpa [updateFamily, hg] using hc, hrest⟩

lemma inv_scheduleIfNeeded (hcount : s.bkgActive = s.jobs.countP fun job => job.phase.active)
    (hserved : ∀ g, g ≠ f → Waiting s g → ∃ job ∈ s.jobs, job.family = g) :
    Inv (s.scheduleIfNeeded f) := by
  have hall : ¬ Waiting s f → Inv s := fun hf => ⟨hcount, fun g hg =>
    hserved g (fun heq => hf (heq ▸ hg)) hg⟩
  rw [scheduleIfNeeded]
  split
  · next hnone => exact hall fun ⟨_, c, hc, _⟩ => by simp [hnone] at hc
  · next c hc =>
    split_ifs with hdown hidle
    · exact hall fun hf => absurd hf.1 (by simp [hdown])
    · refine hall ?_
      rintro ⟨-, c', hc', -, -, hpos⟩
      obtain rfl := Option.some.inj (hc.symm.trans hc')
      exact hpos.ne' hidle.1
    · refine ⟨by simp [hcount, countP_append, Phase.active], fun g hg => ?_⟩
      by_cases hgf : g = f
      · exact ⟨⟨f, .scheduled⟩, by simp, hgf.symm⟩
      · obtain ⟨job, hmem, hfam⟩ := hserved g hgf (Waiting.of_ne (s := s) hgf hg)
        exact ⟨job, mem_append_left _ hmem, hfam⟩

lemma Inv.goesOn (h : Inv s) (hjob : s.jobs[n]? = some job)
    (hphase : phase.active = job.phase.active) (hupdate : ∀ c, (update c).dropped = false →
      (update c).backgroundError = none → 0 < (update c).immutables →
      c.dropped = false ∧ c.backgroundError = none ∧ 0 < c.immutables) :
    Inv ((s.updateFamily job.family update).setPhase n job.family phase) :=
  h.moved hjob rfl (Or.inl ⟨hphase, rfl⟩) fun _ hf => Waiting.of_updateFamily (s := s) hupdate hf

lemma Inv.makeRoomForWrite (h : Inv s) (f : F) (mutableFull : Bool) (numberLevel0Files : ℕ)
    (hserved : s.switches f mutableFull numberLevel0Files = true →
      Served (s.makeImmutablePipeline f) s.jobs f) :
    Inv (s.makeRoomForWrite f mutableFull numberLevel0Files) := by
  rw [State.makeRoomForWrite]
  split_ifs with hswitch
  · have hothers : ∀ g, g ≠ f → Waiting (s.makeImmutablePipeline f) g → ∃ job ∈ s.jobs,
        job.family = g :=
      fun g hg hwait => h.served g (hwait.of_ne hg)
    rw [maybeScheduleCompaction]
    split_ifs with hactive
    · refine ⟨h.count, fun g hg => ?_⟩
      by_cases hgf : g = f
      · exact hgf ▸ hserved hswitch (hgf ▸ hg) hactive
      · exact hothers g hgf hg
    · exact inv_scheduleIfNeeded h.count hothers
  · exact h

lemma Inv.step {a : Action F} (h : Inv s) (hturn : AsksInTurn s a) (hs : s.step a = some s') :
    Inv s' := by
  cases a with
  | newColumnFamily f =>
    obtain ⟨hnone, rfl⟩ : s.families f = none ∧ _ = s' := by simpa [State.step] using hs
    refine ⟨h.count, fun g hg => h.served g ?_⟩
    obtain ⟨hup, c, hc, hlive, herror, hpos⟩ := hg
    by_cases hgf : g = f
    · obtain rfl : _ = c := by simpa [hgf] using hc
      exact absurd hpos (lt_irrefl 0)
    · exact ⟨hup, c, by simpa [hgf] using hc, hlive, herror, hpos⟩
  | dropColumnFamily f =>
    obtain ⟨-, rfl⟩ : _ ∧ s.updateFamily f _ = s' := by simpa [State.step] using hs
    exact ⟨h.count, fun g hg => h.served g (hg.of_updateFamily (by simp))⟩
  | makeRoomForWrite f mutableFull numberLevel0Files =>
    obtain rfl := Option.some.inj hs
    exact h.makeRoomForWrite f mutableFull numberLevel0Files hturn
  | startJob n =>
    obtain ⟨job, hjob, hphase, rfl⟩ := withJob_eq_some hs
    refine h.moved hjob rfl (Or.inl ⟨?_, rfl⟩) fun f hf => hf
    rw [hphase]
    split_ifs
    · rfl
    · exact peeked_active _
  | flushTable n needsCompaction =>
    obtain ⟨job, hjob, hphase, rfl⟩ := withJob_eq_some hs
    exact h.goesOn hjob (by rw [hphase, peeked_active]; rfl) fun c hlive herror hpos =>
      ⟨hlive, herror, lt_of_lt_of_le hpos (Nat.sub_le _ _)⟩
  | flushFails n e =>
    obtain ⟨job, hjob, hphase, rfl⟩ := withJob_eq_some hs
    exact h.goesOn hjob (by rw [hphase]; rfl) (by simp)
  | compactFiles n result needsCompaction =>
    obtain ⟨job, hjob, hphase, rfl⟩ := withJob_eq_some hs
    refine h.goesOn hjob (by rw [hphase]; rfl) fun c hlive herror hpos => ⟨hlive, ?_, hpos⟩
    cases result with
    | ok _ => exact herror
    | error e => simp at herror
  | subtractActive n =>
    obtain ⟨job, hjob, hphase, rfl⟩ := withJob_eq_some hs
    exact h.moved hjob rfl (Or.inr ⟨by rw [hphase]; rfl, rfl, rfl⟩) fun f hf => hf
  | clearProgress n =>
    obtain ⟨job, hjob, hphase, rfl⟩ := withJob_eq_some hs
    exact h.goesOn hjob (by rw [hphase]; rfl) fun c hlive herror hpos => ⟨hlive, herror, hpos⟩
  | loadActive n =>
    obtain ⟨job, hjob, hphase, rfl⟩ := withJob_eq_some hs
    obtain ⟨hcount, hothers⟩ := h.removed hjob (by rw [hphase]; rfl)
    split_ifs with hactive
    · refine ⟨hcount, fun f hf => ?_⟩
      by_cases hfam : f = job.family
      · exact hfam ▸ hturn job hjob (hfam ▸ hf) hactive
      · exact hothers f hfam hf
    · exact h.moved hjob rfl (Or.inl ⟨by rw [hphase]; rfl, rfl⟩) fun f hf => hf
  | schedule n =>
    obtain ⟨job, hjob, hphase, rfl⟩ := withJob_eq_some hs
    obtain ⟨hcount, hothers⟩ := h.removed hjob (by rw [hphase]; rfl)
    exact inv_scheduleIfNeeded hcount hothers
  | shutDown =>
    obtain rfl := Option.some.inj hs
    exact ⟨h.count, fun f hf => absurd hf.1 (by simp)⟩

/-- As long as `MaybeScheduleCompaction` is kept from starting a job by jobs of the same family
only, no family that waits is left without a job. -/
theorem noOrphan_always (needsCompaction : F → Option Bool) (as : List (Action F))
    (hturn : EachStep State.step AsksInTurn (State.opened needsCompaction) as) :
    Always State.step NoOrphan (State.opened needsCompaction) as := fun bs s hb hs =>
  (always_of_eachStep (fun _ _ _ hc h hs => h.step hc hs) (inv_opened needsCompaction) hturn bs s hb
    hs).noOrphan

end Invariant

def twoFamilies : State ℕ := State.opened fun f => if f < 2 then some false else none

def endOfJob : List (Action ℕ) :=
  [.compactFiles 0 (.ok ()) false, .subtractActive 0, .clearProgress 0, .loadActive 0, .schedule 0]

def switchTwice : List (Action ℕ) :=
  [.makeRoomForWrite 0 true 0, .startJob 0, .flushTable 0 true, .makeRoomForWrite 0 true 0]

theorem noOrphan_switchTwice :
    ∃ s, run State.step twoFamilies (switchTwice ++ endOfJob) = some s ∧ Waiting s 0 ∧
    NoOrphan s := by
  refine ⟨_, rfl, ⟨rfl, _, rfl, rfl, rfl, by decide⟩, ?_⟩
  refine noOrphan_always (fun f => if f < 2 then some false else none) (switchTwice ++ endOfJob) ?_
    _ _ (prefix_refl _) rfl
  refine eachStep_cons.mpr fun s₁ hs₁ =>
    ⟨?_, eachStep_cons.mpr fun s₂ hs₂ => ⟨trivial, eachStep_cons.mpr fun s₃ hs₃ =>
    ⟨trivial, eachStep_cons.mpr fun s₄ hs₄ =>
      ⟨?_, eachStep_cons.mpr fun s₅ hs₅ => ⟨trivial, eachStep_cons.mpr fun s₆ hs₆ =>
    ⟨trivial, eachStep_cons.mpr fun s₇ hs₇ => ⟨trivial, eachStep_cons.mpr fun s₈ _ => ⟨?_,
    eachStep_of_forall (by simp [AsksInTurn])⟩⟩⟩⟩⟩⟩⟩⟩
  · exact fun _ _ hactive => absurd hactive (by decide)
  · obtain rfl := Option.some.inj hs₁
    obtain rfl := Option.some.inj hs₂
    obtain rfl := Option.some.inj hs₃
    exact fun _ _ _ => ⟨_, mem_singleton_self _, rfl⟩
  · obtain rfl := Option.some.inj hs₁
    obtain rfl := Option.some.inj hs₂
    obtain rfl := Option.some.inj hs₃
    obtain rfl := Option.some.inj hs₄
    obtain rfl := Option.some.inj hs₅
    obtain rfl := Option.some.inj hs₆
    obtain rfl := Option.some.inj hs₇
    exact fun _ _ _ hactive => absurd hactive (by decide)

def switchOther : List (Action ℕ) :=
  [.makeRoomForWrite 0 true 0, .startJob 0, .makeRoomForWrite 1 true 0, .flushTable 0 false]

/-- A table waits while no job is left to flush it. -/
theorem orphan_switchOther :
    ∃ s, run State.step twoFamilies (switchOther ++ endOfJob) = some s ∧ Waiting s 1 ∧
    s.jobs = [] ∧ ¬ NoOrphan s := by
  have hwaiting : ∀ s, run State.step twoFamilies (switchOther ++ endOfJob) = some s →
      Waiting s 1 ∧ s.jobs = [] ∧ s.bkgActive = 0 := by
    intro s hs
    obtain rfl := Option.some.inj hs
    exact ⟨⟨rfl, _, rfl, rfl, rfl, by decide⟩, rfl, rfl⟩
  obtain ⟨hwait, hjobs, hactive⟩ := hwaiting _ rfl
  refine ⟨_, rfl, hwait, hjobs, fun h => ?_⟩
  rcases h 1 hwait with hpos | ⟨job, hmem, -⟩
  · exact hpos.ne' hactive
  · rw [hjobs] at hmem
    exact absurd hmem not_mem_nil

end Mai.DbScheduling
