import Mai.RunInvariant

/-!
# Compilation jobs

A pool of workers runs compilation jobs (`lang/compilation-worker.cc`). `Commit` hands a job to a
dead worker or queues it, and a worker that finds no job ends. Every access to an atomic field or to
the queue is a step.
-/
namespace Mai.LangCompilationWorker

open RunInvariant Function

variable {T : Type*} [DecidableEq T]

inductive Worker
  | dead
  | starting (job : Option ℕ)
  | running (job : ℕ)
  | checking
  | taking (tries : ℕ)
  | leaving
  | ended

inductive Caller
  | idle
  | commitCheck (job i : ℕ)
  | commitTry (job i : ℕ)
  | commitLock (job : ℕ)
  | commitLocked (job : ℕ)
  | commitPush (job : ℕ)
  | commitWait
  | restartCheck (i : ℕ)
  | restartTry (i : ℕ)
  | pausing (shutdown : Bool) (i : ℕ)
  | shutdownLock
  | resumeRead
  | resumeTry (i : ℕ)

/-- The last four fields are no fields of the source: how many jobs have been committed, and how
often each has been run, disposed of and dropped. -/
structure State (T : Type*) where
  shuttingDown : ℕ
  runningWorkers : ℕ
  mutex : Option T
  queue : List ℕ
  workers : ℕ → Worker
  callers : T → Caller
  committed : ℕ
  ran : ℕ → ℕ
  disposed : ℕ → ℕ
  dropped : ℕ → ℕ

def new : State T := ⟨0, 0, none, [], fun _ => .dead, fun _ => .idle, 0, fun _ => 0, fun _ => 0,
    fun _ => 0⟩

namespace State

def goto (s : State T) (t : T) (pc : Caller) : State T :=
  { s with callers := update s.callers t pc }

def set (s : State T) (i : ℕ) (w : Worker) : State T := { s with workers := update s.workers i w }

def leave (s : State T) (t : T) : State T := { s.goto t .idle with mutex := none }

lemma goto_self (s : State T) (t : T) (pc : Caller) : (s.goto t pc).callers t = pc := by simp [goto]

omit [DecidableEq T] in
lemma set_self (s : State T) (i : ℕ) (w : Worker) : (s.set i w).workers i = w := by simp [set]

def runJob (s : State T) (job : ℕ) : State T :=
  { s with
    ran := update s.ran job (s.ran job + 1)
    disposed := update s.disposed job (s.disposed job + 1) }

def drop (s : State T) : State T :=
  { s with
    queue := []
    dropped := fun j => s.dropped j + s.queue.count j
    disposed := fun j => s.disposed j + s.queue.count j }

end State

inductive Op (T : Type*)
  | commit (t : T)
  | pause (t : T) (shutdown : Bool)
  | resume (t : T)
  | caller (t : T)
  | worker (i : ℕ)

def spins : ℕ := 11

def callerStep (n : ℕ) (s : State T) (t : T) : Caller → Option (State T)
  | .idle => none
  | .commitCheck job i =>
    if i < n then
      if s.shuttingDown ≠ 0 then some (s.goto t .idle) else some (s.goto t (.commitTry job i))
    else some (s.goto t (.commitLock job))
  | .commitTry job i =>
    match s.workers i with
    | .dead => some ((s.set i (.starting (some job))).goto t .idle)
    | _ => some (s.goto t (.commitCheck job (i + 1)))
  | .commitLock job =>
    if s.mutex = none then some { s.goto t (.commitLocked job) with mutex := some t } else none
  | .commitLocked job =>
    if s.shuttingDown ≠ 0 then some (s.leave t) else some (s.goto t (.commitPush job))
  | .commitPush job => some { s.goto t .commitWait with queue := s.queue ++ [job] }
  | .commitWait =>
    if s.runningWorkers = 0 then some (s.goto t (.restartCheck 0)) else some (s.leave t)
  | .restartCheck i =>
    if i < n then
      if s.shuttingDown ≠ 0 then some (s.leave t) else some (s.goto t (.restartTry i))
    else some (s.goto t .commitWait)
  | .restartTry i =>
    match s.workers i with
    | .dead => some ((s.set i (.starting none)).leave t)
    | _ => some (s.goto t (.restartCheck (i + 1)))
  | .pausing shutdown i =>
    if i < n then
      match s.workers i with
      | .dead => some (s.goto t (.pausing shutdown (i + 1)))
      | _ => none
    else if s.runningWorkers ≠ 0 then some (s.goto t (.pausing shutdown 0))
    else some (s.goto t (if shutdown then .shutdownLock else .idle))
  | .shutdownLock => if s.mutex = none then some (s.drop.goto t .idle) else none
  | .resumeRead =>
    if s.mutex = none then some (s.goto t (if s.queue = [] then .idle else .resumeTry 0)) else none
  | .resumeTry i =>
    if i < n then
      match s.workers i with
      | .dead => some ((s.set i (.starting none)).goto t .idle)
      | _ => some (s.goto t (.resumeTry (i + 1)))
    else some (s.goto t .idle)

def workerStep (s : State T) (i : ℕ) : Worker → Option (State T)
  | .dead => none
  | .starting (some job) =>
    some { s.set i (.running job) with runningWorkers := s.runningWorkers + 1 }
  | .starting none => some { s.set i .checking with runningWorkers := s.runningWorkers + 1 }
  | .running job => some ((s.runJob job).set i .checking)
  | .checking => some (s.set i (if s.shuttingDown ≠ 0 then .leaving else .taking spins))
  | .taking tries =>
    if s.mutex = none then
      match s.queue, tries with
      | job :: queue, _ => some { s.set i (.running job) with queue := queue }
      | [], 0 => some (s.set i .leaving)
      | [], tries + 1 => some (s.set i (.taking tries))
    else none
  | .leaving => some { s.set i .ended with runningWorkers := s.runningWorkers - 1 }
  | .ended => some (s.set i .dead)

def step (n : ℕ) (s : State T) : Op T → Option (State T)
  | .commit t =>
    match s.callers t with
    | .idle => some { s.goto t (.commitCheck s.committed 0) with committed := s.committed + 1 }
    | _ => none
  | .pause t shutdown =>
    match s.callers t with
    | .idle => some { s.goto t (.pausing shutdown 0) with shuttingDown := s.shuttingDown + 1 }
    | _ => none
  | .resume t =>
    match s.callers t with
    | .idle => some { s.goto t .resumeRead with shuttingDown := 0 }
    | _ => none
  | .caller t => callerStep n s t (s.callers t)
  | .worker i => workerStep s i (s.workers i)

def Quiet (s : State T) : Prop :=
  (∀ t, s.callers t = .idle) ∧ (∀ i, s.workers i = .dead) ∧ s.shuttingDown = 0

def Accounted (s : State T) : Prop :=
  (∀ j, s.ran j ≤ 1) ∧ (Quiet s → ∀ j < s.committed, s.disposed j = 1 ∧ s.ran j + s.dropped j = 1)

def Worker.Looking : Worker → Prop
  | .starting _ | .running _ | .checking | .taking _ => True
  | _ => False

instance Worker.decidableLooking : (w : Worker) → Decidable w.Looking
  | .starting _ | .running _ | .checking | .taking _ => isTrue trivial
  | .dead | .leaving | .ended => isFalse id

/-- `Commit` does not meet a pause, and neither it nor `Resume` relies on workers that are about to
end. -/
def Careful (n : ℕ) (s : State T) : Op T → Prop
  | .caller t =>
    match s.callers t with
    | .commitCheck _ i => i < n → s.shuttingDown = 0
    | .commitLocked _ => s.shuttingDown = 0
    | .commitWait => s.runningWorkers ≠ 0 → ∃ i < n, (s.workers i).Looking
    | .resumeTry i => n ≤ i → ∃ i < n, (s.workers i).Looking
    | _ => True
  | _ => True

instance decidableCareful (n : ℕ) (s : State T) (op : Op T) : Decidable (Careful n s op) := by
  unfold Careful
  cases op with
  | caller t => dsimp only; split <;> infer_instance
  | _ => dsimp only; infer_instance

section Located

def Worker.job : Worker → Option ℕ
  | .starting job => job
  | .running job => some job
  | _ => none

def Caller.job : Caller → Option ℕ
  | .commitCheck job _ | .commitTry job _ | .commitLock job | .commitLocked job | .commitPush job =>
    some job
  | _ => none

inductive Place (T : Type*)
  | caller (t : T)
  | queue
  | worker (i : ℕ)
  | ran
  | dropped
  deriving DecidableEq

structure Located (s : State T) (place : ℕ → Option (Place T)) : Prop where
  committed : ∀ j, place j = none ↔ s.committed ≤ j
  caller : ∀ t j, (s.callers t).job = some j ↔ place j = some (.caller t)
  worker : ∀ i j, (s.workers i).job = some j ↔ place j = some (.worker i)
  queue : ∀ j, s.queue.count j = if place j = some .queue then 1 else 0
  ran : ∀ j, s.ran j = if place j = some .ran then 1 else 0
  dropped : ∀ j, s.dropped j = if place j = some .dropped then 1 else 0
  disposed : ∀ j, s.disposed j = s.ran j + s.dropped j

variable {s s' : State T} {place : ℕ → Option (Place T)} {t : T} {i j : ℕ} {pc : Caller}
  {w : Worker}

lemma Located.frame (h : Located s place) (d r : ℕ) (m : Option T) :
    Located { s with shuttingDown := d, runningWorkers := r, mutex := m } place :=
  ⟨h.1, h.2, h.3, h.4, h.5, h.6, h.7⟩

lemma Located.goto (h : Located s place) (hjob : pc.job = (s.callers t).job) :
    Located (s.goto t pc) place where
  __ := h
  caller u j := by
    dsimp only [State.goto]
    by_cases hu : u = t
    · rw [hu, update_self, hjob, h.caller]
    · rw [update_of_ne hu, h.caller]

lemma Located.set (h : Located s place) (hjob : w.job = (s.workers i).job) :
    Located (s.set i w) place where
  __ := h
  worker u j := by
    dsimp only [State.set]
    by_cases hu : u = i
    · rw [hu, update_self, hjob, h.worker]
    · rw [update_of_ne hu, h.worker]

lemma Located.commit (h : Located s place) (ht : (s.callers t).job = none)
    (hpc : pc.job = some s.committed) :
    Located { s.goto t pc with committed := s.committed + 1 }
      (update place s.committed (some (.caller t))) := by
  have hnew := (h.committed s.committed).mpr le_rfl
  obtain ⟨h1, h2, h3, h4, h5, h6, h7⟩ := h
  constructor <;> dsimp only [State.goto] <;> grind [update_apply]

lemma Located.hire (h : Located s place) (ht : (s.callers t).job = some j)
    (hi : (s.workers i).job = none) (hpc : pc.job = none) (hw : w.job = some j) :
    Located ((s.set i w).goto t pc) (update place j (some (.worker i))) := by
  have hj := (h.caller t j).mp ht
  obtain ⟨h1, h2, h3, h4, h5, h6, h7⟩ := h
  constructor <;> dsimp only [State.goto, State.set] <;> grind [update_apply]

lemma Located.enqueue (h : Located s place) (ht : (s.callers t).job = some j)
    (hpc : pc.job = none) :
    Located { s.goto t pc with queue := s.queue ++ [j] } (update place j (some .queue)) := by
  have hj := (h.caller t j).mp ht
  obtain ⟨h1, h2, h3, h4, h5, h6, h7⟩ := h
  constructor <;> dsimp only [State.goto] <;> grind [update_apply]

lemma Located.take {queue : List ℕ} (h : Located s place) (hqueue : s.queue = j :: queue)
    (hi : (s.workers i).job = none) (hw : w.job = some j) :
    Located { s.set i w with queue := queue } (update place j (some (.worker i))) := by
  have hj := h.queue j
  obtain ⟨h1, h2, h3, h4, h5, h6, h7⟩ := h
  constructor <;> dsimp only [State.set] <;> grind [update_apply]

lemma Located.finish (h : Located s place) (hi : (s.workers i).job = some j) (hw : w.job = none) :
    Located ((s.runJob j).set i w) (update place j (some .ran)) := by
  have hj := (h.worker i j).mp hi
  obtain ⟨h1, h2, h3, h4, h5, h6, h7⟩ := h
  constructor <;> dsimp only [State.set, State.runJob] <;> grind [update_apply]

lemma Located.drop (h : Located s place) :
    Located s.drop (fun j => if place j = some .queue then some .dropped else place j) := by
  obtain ⟨h1, h2, h3, h4, h5, h6, h7⟩ := h
  constructor <;> dsimp only [State.drop] <;> grind

end Located

section Steps

def Caller.Covering : Caller → Prop
  | .commitWait | .restartCheck _ | .restartTry _ | .resumeRead | .resumeTry _ => True
  | _ => False

def Covered (s : State T) : Prop :=
  s.shuttingDown = 0 → s.queue ≠ [] → (∃ i, (s.workers i).Looking) ∨ ∃ t, (s.callers t).Covering

structure Inv (s : State T) : Prop where
  located : ∃ place, Located s place
  covered : Covered s

def Excused (s : State T) : Prop := s.shuttingDown ≠ 0 ∨ s.queue = [] ∨ ∃ i, (s.workers i).Looking

variable {n : ℕ} {s s' : State T} {t : T} {i j : ℕ} {pc : Caller} {w : Worker}

omit [DecidableEq T] in
lemma covered_of_excused (h : Excused s) : Covered s := by
  rintro hdown hqueue
  rcases h with h | h | h
  · exact absurd hdown h
  · exact absurd h hqueue
  · exact .inl h

omit [DecidableEq T] in
lemma looking_set (hw : w.Looking) : ∃ k, ((s.set i w).workers k).Looking :=
  ⟨i, by rw [State.set_self]; exact hw⟩

lemma Covered.goto (h : Covered s) (hc : (s.callers t).Covering → pc.Covering ∨ Excused s) :
    Covered (s.goto t pc) := by
  intro hdown hqueue
  rcases h hdown hqueue with hl | ⟨u, hu⟩
  · exact .inl hl
  · by_cases hut : u = t
    · rcases hc (hut ▸ hu) with hp | he
      · exact .inr ⟨t, by rw [State.goto_self]; exact hp⟩
      · exact covered_of_excused he hdown hqueue
    · exact .inr ⟨u, by simpa [State.goto, hut] using hu⟩

omit [DecidableEq T] in
lemma Covered.set (h : Covered s)
    (hw : (s.workers i).Looking → w.Looking ∨ s.shuttingDown ≠ 0 ∨ s.queue = []) :
    Covered (s.set i w) := by
  intro hdown hqueue
  rcases h hdown hqueue with ⟨k, hk⟩ | hc
  · by_cases hki : k = i
    · rcases hw (hki ▸ hk) with hl | hd | hq
      · exact .inl (looking_set hl)
      · exact absurd hdown hd
      · exact absurd hq hqueue
    · exact .inl ⟨k, by simpa [State.set, hki] using hk⟩
  · exact .inr hc

lemma Inv.frame (h : Inv s) (r : ℕ) (m : Option T) :
    Inv { s with runningWorkers := r, mutex := m } :=
  ⟨h.located.imp fun _ hp => hp.frame _ _ _, h.covered⟩

lemma Inv.goto (h : Inv s) (hjob : pc.job = (s.callers t).job)
    (hc : (s.callers t).Covering → pc.Covering ∨ Excused s) : Inv (s.goto t pc) :=
  ⟨h.located.imp fun _ hp => hp.goto hjob, h.covered.goto hc⟩

lemma Inv.set (h : Inv s) (hjob : w.job = (s.workers i).job)
    (hw : (s.workers i).Looking → w.Looking ∨ s.shuttingDown ≠ 0 ∨ s.queue = []) :
    Inv (s.set i w) :=
  ⟨h.located.imp fun _ hp => hp.set hjob, h.covered.set hw⟩

lemma Inv.restart (h : Inv s) (hdead : s.workers i = .dead) (hjob : (s.callers t).job = none) :
    Inv ((s.set i (.starting none)).goto t .idle) := by
  refine Inv.goto (h.set ?_ fun _ => .inl trivial) hjob.symm fun _ =>
    .inr (.inr (.inr (looking_set trivial)))
  rw [hdead]
  rfl

lemma Inv.hire (h : Inv s) (hpc : s.callers t = .commitTry j i) (hdead : s.workers i = .dead) :
    Inv ((s.set i (.starting (some j))).goto t .idle) := by
  obtain ⟨place, hp⟩ := h.located
  refine ⟨⟨_, hp.hire (by rw [hpc]; rfl) (by rw [hdead]; rfl) rfl rfl⟩, ?_⟩
  exact covered_of_excused (.inr (.inr (looking_set trivial)))

lemma Inv.enqueue (h : Inv s) (hpc : s.callers t = .commitPush j) :
    Inv { s.goto t .commitWait with queue := s.queue ++ [j] } := by
  obtain ⟨place, hp⟩ := h.located
  exact ⟨⟨_, hp.enqueue (by rw [hpc]; rfl) rfl⟩,
    fun _ _ => .inr ⟨t, by rw [State.goto_self]; trivial⟩⟩

lemma Inv.drop (h : Inv s) (hpc : s.callers t = .shutdownLock) : Inv (s.drop.goto t .idle) := by
  obtain ⟨place, hp⟩ := h.located
  exact ⟨⟨_, hp.drop.goto (by rw [State.drop, hpc]; rfl)⟩, covered_of_excused (.inr (.inl rfl))⟩

lemma inv_caller (hpc : s.callers t = pc) (h : Inv s) (hC : Careful n s (.caller t))
    (hs : callerStep n s t pc = some s') : Inv s' := by
  have stay (pc' : Caller) (hjob : pc'.job = pc.job) (hc : pc.Covering → pc'.Covering ∨ Excused s) :
      Inv (s.goto t pc') :=
    h.goto (by rw [hpc, hjob]) (by rw [hpc]; exact hc)
  simp only [Careful, hpc] at hC
  cases pc with simp only [callerStep] at hs
  | idle => cases hs
  | commitCheck job i =>
    split_ifs at hs with hi hdown <;> cases hs
    · exact absurd (hC hi) hdown
    · exact stay _ rfl nofun
    · exact stay _ rfl nofun
  | commitTry job i =>
    split at hs
    · next hw =>
      cases hs
      exact h.hire hpc hw
    · cases hs
      exact stay _ rfl nofun
  | commitLock job =>
    split_ifs at hs
    cases hs
    exact (stay (.commitLocked job) rfl nofun).frame _ _
  | commitLocked job =>
    split_ifs at hs with hdown <;> cases hs
    · exact absurd hC hdown
    · exact stay _ rfl nofun
  | commitPush job =>
    cases hs
    exact h.enqueue hpc
  | commitWait =>
    split_ifs at hs with hrun <;> cases hs
    · exact stay _ rfl fun _ => .inl trivial
    · exact (stay .idle rfl fun _ => .inr (.inr (.inr ((hC hrun).imp fun _ => And.right)))).frame
        _ _
  | restartCheck i =>
    split_ifs at hs with hi hdown <;> cases hs
    · exact (stay .idle rfl fun _ => .inr (.inl hdown)).frame _ _
    · exact stay _ rfl fun _ => .inl trivial
    · exact stay _ rfl fun _ => .inl trivial
  | restartTry i =>
    split at hs
    · next hw =>
      cases hs
      exact (h.restart hw (by rw [hpc]; rfl)).frame _ _
    · cases hs
      exact stay _ rfl fun _ => .inl trivial
  | pausing shutdown i =>
    split_ifs at hs
    · split at hs <;> cases hs
      exact stay _ rfl nofun
    all_goals
      cases hs
      exact stay _ rfl nofun
  | shutdownLock =>
    split_ifs at hs
    cases hs
    exact h.drop hpc
  | resumeRead =>
    split_ifs at hs with hm hqueue <;> cases hs
    · exact stay _ rfl fun _ => .inr (.inr (.inl hqueue))
    · exact stay _ rfl fun _ => .inl trivial
  | resumeTry i =>
    split_ifs at hs with hi
    · split at hs
      · next hw =>
        cases hs
        exact h.restart hw (by rw [hpc]; rfl)
      · cases hs
        exact stay _ rfl fun _ => .inl trivial
    · cases hs
      exact stay _ rfl fun _ => .inr (.inr (.inr ((hC (not_lt.mp hi)).imp fun _ => And.right)))

lemma inv_worker (hw : s.workers i = w) (h : Inv s) (hs : workerStep s i w = some s') : Inv s' := by
  have stay (w' : Worker) (hjob : w'.job = w.job) (hl : w.Looking → w'.Looking ∨
      s.shuttingDown ≠ 0 ∨ s.queue = []) :
      Inv (s.set i w') := h.set (by rw [hw, hjob]) (by rw [hw]; exact hl)
  cases w with
  | dead => cases hs
  | starting job =>
    cases job with
    | none =>
      cases hs
      exact (stay .checking rfl fun _ => .inl trivial).frame _ _
    | some job =>
      cases hs
      exact (stay (.running job) rfl fun _ => .inl trivial).frame _ _
  | running job =>
    cases hs
    obtain ⟨place, hp⟩ := h.located
    exact ⟨⟨_, hp.finish (by rw [hw]; rfl) rfl⟩,
      covered_of_excused (.inr (.inr (looking_set trivial)))⟩
  | checking =>
    cases hs
    split_ifs with hdown
    · exact stay _ rfl fun _ => .inr (.inl hdown)
    · exact stay _ rfl fun _ => .inl trivial
  | taking tries =>
    simp only [workerStep] at hs
    split_ifs at hs
    split at hs <;> cases hs
    · next hqueue =>
      obtain ⟨place, hp⟩ := h.located
      exact ⟨⟨_, hp.take hqueue (by rw [hw]; rfl) rfl⟩,
        covered_of_excused (.inr (.inr (looking_set trivial)))⟩
    · next hqueue => exact stay _ rfl fun _ => .inr (.inr hqueue)
    · exact stay _ rfl fun _ => .inl trivial
  | leaving =>
    cases hs
    exact (stay .ended rfl nofun).frame _ _
  | ended =>
    cases hs
    exact stay _ rfl nofun

lemma inv_step {op : Op T} (h : Inv s) (hC : Careful n s op) (hs : step n s op = some s') :
    Inv s' := by
  cases op with
  | commit t =>
    simp only [step] at hs
    split at hs <;> cases hs
    next hidle =>
    obtain ⟨place, hp⟩ := h.located
    exact ⟨⟨_, hp.commit (by rw [hidle]; rfl) rfl⟩, h.covered.goto (by rw [hidle]; nofun)⟩
  | pause t shutdown =>
    simp only [step] at hs
    split at hs <;> cases hs
    next hidle =>
    obtain ⟨place, hp⟩ := h.located
    exact ⟨⟨_, (hp.goto (by rw [hidle]; rfl)).frame _ _ _⟩, nofun⟩
  | resume t =>
    simp only [step] at hs
    split at hs <;> cases hs
    next hidle =>
    obtain ⟨place, hp⟩ := h.located
    exact ⟨⟨_, (hp.goto (by rw [hidle]; rfl)).frame _ _ _⟩,
      fun _ _ => .inr ⟨t, by rw [State.goto_self]; trivial⟩⟩
  | caller t => exact inv_caller rfl h hC hs
  | worker i => exact inv_worker rfl h hs

end Steps

section Main

variable {n : ℕ} {s : State T}

lemma inv_new : Inv (new : State T) :=
  ⟨⟨fun _ => none, ⟨by simp [new], by simp [new, Caller.job], by simp [new, Worker.job],
    by simp [new], by simp [new], by simp [new], by simp [new]⟩⟩, nofun⟩

lemma Inv.accounted (h : Inv s) : Accounted s := by
  obtain ⟨place, hp⟩ := h.located
  refine ⟨fun j => by rw [hp.ran]; split_ifs <;> omega, fun ⟨hcallers, hworkers, hdown⟩ j hj => ?_⟩
  have hqueue : s.queue = [] := by
    by_contra hne
    rcases h.covered hdown hne with ⟨i, hi⟩ | ⟨t, ht⟩
    · rw [hworkers] at hi
      exact hi
    · rw [hcallers] at ht
      exact ht
  rw [hp.disposed, hp.ran, hp.dropped]
  cases hplace : place j with
  | none => exact absurd ((hp.committed j).mp hplace) (by omega)
  | some q =>
    cases q with
    | caller t =>
      have hjob := (hp.caller t j).mpr hplace
      rw [hcallers] at hjob
      cases hjob
    | worker i =>
      have hjob := (hp.worker i j).mpr hplace
      rw [hworkers] at hjob
      cases hjob
    | queue =>
      have hcount := hp.queue j
      rw [hqueue, if_pos hplace] at hcount
      cases hcount
    | ran => simp
    | dropped => simp

/-- Every committed job is run and disposed of once, or dropped once by `Shutdown`, in every
interleaving in which `Commit` does not meet a pause and neither it nor `Resume` relies on workers
that are about to end. -/
theorem jobs_accounted (ops : List (Op T))
    (hC : EachStep (step n) (Careful n) (new : State T) ops) :
    Always (step n) Accounted (new : State T) ops :=
  fun bs t hbs hrun => (always_of_eachStep (fun _ _ _ hc hI hs => inv_step hI hc hs) inv_new hC bs t
    hbs hrun).accounted

theorem jobs_accounted_dropped :
    let ops : List (Op Bool) :=
      [.commit false, .caller false, .caller false, .worker 0, .commit true, .caller true,
        .caller true, .caller true, .caller true, .caller true, .caller true, .caller true,
        .worker 0, .worker 0, .worker 0, .commit false, .caller false, .caller false, .caller false,
        .caller false, .caller false, .caller false, .caller false, .pause true true, .worker 0,
        .worker 0, .worker 0, .worker 0, .caller true, .caller true, .caller true]
    Always (step 1) Accounted (new : State Bool) ops ∧
      (run (step 1) (new : State Bool) ops).map
      (fun s => ([0, 1, 2].map s.ran, [0, 1, 2].map s.dropped)) =
        some ([1, 1, 0], [0, 0, 1]) :=
  ⟨jobs_accounted _ (eachStep_of_checkEach (by decide +kernel)), by decide +kernel⟩

/-- A job that is committed during a pause is neither run nor dropped: the pool is paused, the
commit returns, and the pool is resumed. -/
theorem job_lost :
    let ops : List (Op Bool) :=
      [.pause true false, .caller true, .caller true, .commit false, .caller false, .resume true,
        .caller true]
    ∃ s, run (step 1) (new : State Bool) ops = some s ∧ ¬Accounted s := by
  refine ⟨_, rfl, fun h => ?_⟩
  exact absurd (h.2 ⟨by rintro (_ | _) <;> rfl, fun _ => rfl, rfl⟩ 0 Nat.zero_lt_one).1 (by decide)

end Main

end Mai.LangCompilationWorker
