import Mai.RunInvariant

/-! File numbers (`VersionSet::GenerateFileNumber`, `VersionSet::ReuseFileNumber`): logs, manifests
and tables share one counter, which is kept in the patches of the manifest. A file is created before
the patch that follows it. Every step is one access to a file, so that a crash can come between any
two of them. -/
namespace Mai.DbFileNumbers
open RunInvariant List Option

/-- The manifest that the process writes to, and whether the file `CURRENT` names it. -/
inductive Manifest
  | closed
  | unnamed
  | named
  deriving DecidableEq, Repr

structure Files where
  nextFileNumber : ℕ
  /-- The numbers of the log, manifest and table files in the directories. -/
  disk : List ℕ
  /-- The numbers given to tables whose files are not open yet. -/
  pending : List ℕ
  manifest : Manifest
  /-- The counter in the last patch of the manifest that `CURRENT` names. -/
  recorded : ℕ
  /-- The numbers generated since that patch. -/
  unrecorded : List ℕ
  deriving DecidableEq, Repr

inductive Action
  /-- `RenewLogger`, with the result of opening the file. -/
  | renewLogger (opened : Bool)
  /-- A flush or a compaction takes its number. -/
  | startTable
  /-- It opens the file. -/
  | openTable (number : ℕ) (opened : Bool)
  /-- It fails before it opens the file. -/
  | abandonTable (number : ℕ)
  /-- `CreateManifestFile` when `LogAndApply` finds no manifest open. -/
  | createManifestFile (opened : Bool)
  /-- `WriteCurrentSnapshot` writes the file `CURRENT`; the new manifest has no patch with the
  counter. -/
  | writeCurrent
  /-- `WritePatch` of a patch with the counter. -/
  | writePatch
  | deleteFile (number : ℕ)
  /-- The process ends; the next one reads the counter from the manifest. -/
  | crash
  deriving DecidableEq, Repr

namespace Files

def new : Files := ⟨0, [], [], .closed, 0, []⟩

def generateFileNumber (s : Files) : Files :=
  { s with nextFileNumber := s.nextFileNumber + 1, unrecorded := s.nextFileNumber :: s.unrecorded }

def reuseFileNumber (s : Files) (number : ℕ) : Files :=
  if number + 1 = s.nextFileNumber then { s with nextFileNumber := number } else s

def newFile (s : Files) (opened : Bool) : Files :=
  if opened then { s.generateFileNumber with disk := s.nextFileNumber :: s.disk }
  else s.generateFileNumber.reuseFileNumber s.nextFileNumber

end Files

def step (s : Files) : Action → Option Files
  | .renewLogger opened => some (s.newFile opened)
  | .startTable => some { s.generateFileNumber with pending := s.nextFileNumber :: s.pending }
  | .openTable number opened =>
    if number ∈ s.pending then
      let s := { s with pending := s.pending.erase number }
      some (if opened then { s with disk := number :: s.disk } else s.reuseFileNumber number)
    else none
  | .abandonTable number => some { s with pending := s.pending.erase number }
  | .createManifestFile opened =>
    if s.manifest = .closed then
      some (if opened then { s.newFile true with manifest := .unnamed } else s.newFile false)
    else none
  | .writeCurrent =>
    if s.manifest = .unnamed then
      some { s with manifest := .named, recorded := 0, unrecorded := List.range s.nextFileNumber }
    else none
  | .writePatch =>
    match s.manifest with
    | .closed => none
    | .unnamed => some s
    | .named => some { s with recorded := s.nextFileNumber, unrecorded := [] }
  | .deleteFile number => some { s with disk := s.disk.filter (· ≠ number) }
  | .crash => some { s with
      nextFileNumber := s.recorded, pending := [], manifest := .closed, unrecorded := [] }

def Fresh (s : Files) : Prop := s.nextFileNumber ∉ s.disk

/-- A crash comes when no file has a number that was generated since the last patch of the manifest
that `CURRENT` names. -/
def SafeCrash (s : Files) : Action → Prop
  | .crash => ∀ n ∈ s.unrecorded, n ∉ s.disk
  | _ => True

structure Inv (s : Files) : Prop where
  disk_lt : ∀ n ∈ s.disk, n < s.nextFileNumber
  pending_lt : ∀ n ∈ s.pending, n < s.nextFileNumber
  unopened : ∀ n ∈ s.pending, n ∉ s.disk
  distinct : s.pending.Nodup
  disk_recorded : ∀ n ∈ s.disk, n ∉ s.unrecorded → n < s.recorded
  pending_recorded : ∀ n ∈ s.pending, n ∉ s.unrecorded → n < s.recorded

variable {s t : Files}

lemma Inv.fresh (h : Inv s) : Fresh s := fun hmem => lt_irrefl _ (h.disk_lt _ hmem)

lemma inv_new : Inv Files.new := by
  refine ⟨?_, ?_, ?_, ?_, ?_, ?_⟩ <;> simp [Files.new]

lemma inv_reuse (h : Inv s) {n : ℕ} (hdisk : n ∉ s.disk) (hpending : n ∉ s.pending) :
    Inv (s.reuseFileNumber n) := by
  rw [Files.reuseFileNumber]
  split_ifs with hlast
  · have hlt : ∀ m, m < s.nextFileNumber → m ≠ n → m < n := fun m hm hne => by omega
    exact ⟨fun m hm => hlt m (h.disk_lt m hm) fun heq => hdisk (heq ▸ hm),
      fun m hm => hlt m (h.pending_lt m hm) fun heq => hpending (heq ▸ hm), h.unopened, h.distinct,
      h.disk_recorded, h.pending_recorded⟩
  · exact h

lemma inv_generate (h : Inv s) : Inv s.generateFileNumber where
  disk_lt n hn := (h.disk_lt n hn).trans (Nat.lt_succ_self _)
  pending_lt n hn := (h.pending_lt n hn).trans (Nat.lt_succ_self _)
  unopened := h.unopened
  distinct := h.distinct
  disk_recorded n hn hnot := h.disk_recorded n hn fun hmem => hnot (mem_cons_of_mem _ hmem)
  pending_recorded n hn hnot := h.pending_recorded n hn fun hmem => hnot (mem_cons_of_mem _ hmem)

lemma Inv.next_not_pending (h : Inv s) : s.nextFileNumber ∉ s.pending :=
  fun hmem => lt_irrefl _ (h.pending_lt _ hmem)

lemma inv_newFile (h : Inv s) (opened : Bool) : Inv (s.newFile opened) := by
  cases opened with
  | false => exact inv_reuse (inv_generate h) h.fresh h.next_not_pending
  | true =>
    have hg := inv_generate h
    refine ⟨fun n hn => ?_, hg.pending_lt, fun n hn hmem => ?_, hg.distinct, fun n hn hnot => ?_,
      hg.pending_recorded⟩
    · rcases mem_cons.mp hn with rfl | hn
      · exact Nat.lt_succ_self _
      · exact hg.disk_lt n hn
    · rcases mem_cons.mp hmem with rfl | hmem
      · exact h.next_not_pending hn
      · exact hg.unopened n hn hmem
    · rcases mem_cons.mp hn with rfl | hn
      · exact absurd mem_cons_self hnot
      · exact hg.disk_recorded n hn hnot

lemma inv_startTable (h : Inv s) :
    Inv { s.generateFileNumber with pending := s.nextFileNumber :: s.pending } := by
  have hg := inv_generate h
  refine ⟨hg.disk_lt, fun n hn => ?_, fun n hn => ?_,
    nodup_cons.mpr ⟨h.next_not_pending, h.distinct⟩, hg.disk_recorded, fun n hn hnot => ?_⟩
  · rcases mem_cons.mp hn with rfl | hn
    · exact Nat.lt_succ_self _
    · exact hg.pending_lt n hn
  · rcases mem_cons.mp hn with rfl | hn
    · exact h.fresh
    · exact h.unopened n hn
  · rcases mem_cons.mp hn with rfl | hn
    · exact absurd mem_cons_self hnot
    · exact hg.pending_recorded n hn hnot

lemma inv_erase (h : Inv s) (number : ℕ) : Inv { s with pending := s.pending.erase number } where
  disk_lt := h.disk_lt
  pending_lt n hn := h.pending_lt n (mem_of_mem_erase hn)
  unopened n hn := h.unopened n (mem_of_mem_erase hn)
  distinct := h.distinct.erase number
  disk_recorded := h.disk_recorded
  pending_recorded n hn := h.pending_recorded n (mem_of_mem_erase hn)

lemma inv_openTable (h : Inv s) {number : ℕ} (hmem : number ∈ s.pending) :
    Inv { s with pending := s.pending.erase number, disk := number :: s.disk } := by
  have he := inv_erase h number
  refine ⟨forall_mem_cons.mpr ⟨h.pending_lt _ hmem, h.disk_lt⟩, he.pending_lt, fun n hn hdisk => ?_,
    he.distinct, forall_mem_cons.mpr ⟨h.pending_recorded _ hmem, h.disk_recorded⟩,
    he.pending_recorded⟩
  rcases mem_cons.mp hdisk with rfl | hdisk
  · exact h.distinct.not_mem_erase hn
  · exact he.unopened n hn hdisk

lemma inv_step {a : Action} (h : Inv s) (hsafe : SafeCrash s a) (hstep : step s a = some t) :
    Inv t := by
  cases a with
  | renewLogger opened =>
    obtain rfl := Option.some.inj hstep
    exact inv_newFile h opened
  | startTable =>
    obtain rfl := Option.some.inj hstep
    exact inv_startTable h
  | openTable number opened =>
    obtain ⟨hmem, ⟨⟩⟩ := ite_none_right_eq_some.mp hstep
    cases opened with
    | true => exact inv_openTable h hmem
    | false => exact inv_reuse (inv_erase h number) (h.unopened _ hmem) h.distinct.not_mem_erase
  | abandonTable number =>
    obtain rfl := Option.some.inj hstep
    exact inv_erase h number
  | createManifestFile opened =>
    obtain ⟨-, ⟨⟩⟩ := ite_none_right_eq_some.mp hstep
    cases opened with
    | true =>
      have hnew := inv_newFile h true
      exact ⟨hnew.disk_lt, hnew.pending_lt, hnew.unopened, hnew.distinct, hnew.disk_recorded,
        hnew.pending_recorded⟩
    | false => exact inv_newFile h false
  | writeCurrent =>
    obtain ⟨-, ⟨⟩⟩ := ite_none_right_eq_some.mp hstep
    exact ⟨h.disk_lt, h.pending_lt, h.unopened, h.distinct,
      fun n hn hnot => absurd (mem_range.mpr (h.disk_lt n hn)) hnot,
      fun n hn hnot => absurd (mem_range.mpr (h.pending_lt n hn)) hnot⟩
  | writePatch =>
    simp only [step] at hstep
    split at hstep
    · cases hstep
    · obtain rfl := Option.some.inj hstep
      exact h
    · obtain rfl := Option.some.inj hstep
      exact ⟨h.disk_lt, h.pending_lt, h.unopened, h.distinct, fun n hn _ => h.disk_lt n hn,
        fun n hn _ => h.pending_lt n hn⟩
  | deleteFile number =>
    obtain rfl := Option.some.inj hstep
    exact ⟨fun n hn => h.disk_lt n (mem_of_mem_filter hn), h.pending_lt,
      fun n hn hdisk => h.unopened n hn (mem_of_mem_filter hdisk), h.distinct,
      fun n hn => h.disk_recorded n (mem_of_mem_filter hn), h.pending_recorded⟩
  | crash =>
    obtain rfl := Option.some.inj hstep
    have hdisk : ∀ n ∈ s.disk, n < s.recorded :=
      fun n hn => h.disk_recorded n hn fun hmem => hsafe n hmem hn
    exact ⟨hdisk, by simp, by simp, nodup_nil, fun n hn _ => hdisk n hn, by simp⟩

instance (s : Files) (a : Action) : Decidable (SafeCrash s a) :=
  match a with
  | .crash => inferInstanceAs (Decidable (∀ n ∈ s.unrecorded, n ∉ s.disk))
  | .renewLogger _ | .startTable | .openTable _ _ | .abandonTable _ | .createManifestFile
      _ | .writeCurrent | .writePatch
  | .deleteFile _ => isTrue trivial

/-- No file gets the number of one that exists if crashes come only when every file is recorded. -/
theorem fresh_always (actions : List Action) (hsafe : EachStep step SafeCrash Files.new actions) :
    Always step Fresh Files.new actions := fun bs t hb ht =>
  (always_of_eachStep (fun _ _ _ hsafe h hstep => inv_step h hsafe hstep) inv_new hsafe bs t hb
    ht).fresh

def newDB : List Action :=
  [.renewLogger true, .createManifestFile true, .writeCurrent, .writePatch, .writePatch]

theorem fresh_reopened :
    let actions := newDB ++ [.startTable, .openTable 2 false, .renewLogger true, .writePatch,
      .crash]
    EachStep step SafeCrash Files.new actions ∧ Always step Fresh Files.new actions ∧
      (run step Files.new actions).map Files.nextFileNumber = some 3 := by
  intro actions
  have hsafe : EachStep step SafeCrash Files.new actions :=
    eachStep_of_checkEach (by decide +kernel)
  exact ⟨hsafe, fresh_always actions hsafe, by decide +kernel⟩

/-- A crash between `RenewLogger` and the patch: the number of the new log is given out again. -/
theorem log_number_reused :
    ∃ s, run step Files.new (newDB ++ [.renewLogger true, .crash]) = some s ∧ s.nextFileNumber = 2 ∧
      ¬ Fresh s :=
  ⟨_, rfl, by decide +kernel, by unfold Fresh; decide +kernel⟩

end Mai.DbFileNumbers
