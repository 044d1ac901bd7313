import Mai.RunInvariant
import Mai.DbVersionSet

/-! `VersionSet::LogAndApply` when its writes can fail. Families are added, renumbered and dropped
before the first write, the files of a version change after the last one. -/
namespace Mai.DbLogAndApplyFaults
open CoreKeys DbVersion DbColumnFamily DbVersionSet VersionSet List

variable {K : Type*} [LinearOrder K]

abbrev Faults := ℕ → Bool

structure Outcome (K : Type*) [LinearOrder K] where
  error : Option Error
  versions : VersionSet K
  disk : Manifests K
  done : ℕ

def diskError : Error := .ioError "write"

def writePatches (ok : Faults) (v : VersionSet K) (disk : Manifests K) (done : ℕ) :
    List (VersionPatch K) → Outcome K
  | [] => ⟨none, v, disk, done⟩
  | patch :: patches =>
    if ok done then writePatches ok v (v.writePatch disk patch) (done + 1) patches
    else ⟨some diskError, v, v.writePatch disk patch, done + 1⟩

/-- `VersionSet::WriteCurrentSnapshot`: one record for each family of the list, CURRENT, and the
numbers. -/
def writeCurrentSnapshot (ok : Faults) (v : VersionSet K) (disk : Manifests K) (done : ℕ) :
    Outcome K :=
  let r := writePatches ok v disk done (v.columnFamilies.impls.map snapshotPatch)
  if r.error.isSome then r
  else if ok r.done then
    writePatches ok v { r.disk with current := some v.manifestFileNumber } (r.done + 1)
      [v.numbersPatch]
  else ⟨some diskError, v, r.disk, r.done + 1⟩

/-- `VersionSet::CreateManifestFile`; when the file cannot be opened its number is handed back. -/
def createManifestFile (ok : Faults) (v : VersionSet K) (disk : Manifests K) : Outcome K :=
  if ok 0 then
    writeCurrentSnapshot ok { v with
      manifestFileNumber := v.nextFileNumber
      nextFileNumber := v.nextFileNumber + 1
      logFile := true } disk 1
  else ⟨some diskError, { v with manifestFileNumber := v.nextFileNumber }, disk, 1⟩

def openManifest (ok : Faults) (v : VersionSet K) (disk : Manifests K) : Outcome K :=
  if v.logFile then ⟨none, v, disk, 0⟩ else createManifestFile ok v disk

def writeAndInstall (ok : Faults) (opened : Outcome K) (patch : VersionPatch K) :
    Except Error (Outcome K) := do
  let v := opened.versions
  let written := writePatches ok v opened.disk opened.done [patch]
  if written.error.isSome then return written
  let families ← applyFiles v.columnFamilies patch
  return { written with versions := { v with
    columnFamilies := families
    redoLogNumber := patch.redoLogNumber.getD v.redoLogNumber
    prevLogNumber := patch.prevLogNumber.getD v.prevLogNumber } }

/-- `VersionSet::LogAndApply`; an `Except` error is a use of a null pointer. -/
def logAndApply (ok : Faults) (v : VersionSet K) (disk : Manifests K)
    (options : ColumnFamilyOptions) (patch : VersionPatch K) : Except Error (Outcome K) := do
  let families := v.registerFamily options patch
  let patch := v.completePatch families patch
  let families ← setRedoLog families patch
  let families ← dropColumnFamily families patch
  let opened := openManifest ok { v with columnFamilies := families } disk
  if opened.error.isSome then return opened
  writeAndInstall ok opened
    (if v.logFile then patch
      else { patch with nextFileNumber := some opened.versions.nextFileNumber })

structure Unchanging (s : ColumnFamilySet K) (patch : VersionPatch K) : Prop where
  adds : patch.cfCreation = none
  redo : ∀ r p cfd, patch.redoLog = some r → s.getColumnFamily r.cfid = some p →
    s.impls[p]? = some cfd → cfd.redoLogNumber = r.number
  drops : ∀ id p cfd, patch.cfDeletion = some id → s.getColumnFamily id = some p →
    s.impls[p]? = some cfd → cfd.dropped = true

section Faults
variable {ok : Faults} {v : VersionSet K} {disk : Manifests K} {options : ColumnFamilyOptions}
  {patch : VersionPatch K} {r : Outcome K}

lemma writePatches_versions {done : ℕ} {patches : List (VersionPatch K)} :
    (writePatches ok v disk done patches).versions = v := by
  induction patches generalizing disk done with
  | nil => rfl
  | cons patch patches ih =>
    rw [writePatches]
    split_ifs
    · exact ih
    · rfl

lemma writeCurrentSnapshot_versions {done : ℕ} :
    (writeCurrentSnapshot ok v disk done).versions = v := by
  unfold writeCurrentSnapshot
  simp only
  split_ifs
  · exact writePatches_versions
  · exact writePatches_versions
  · rfl

lemma createManifestFile_families :
    (createManifestFile ok v disk).versions.columnFamilies = v.columnFamilies := by
  rw [createManifestFile]
  split_ifs
  · rw [writeCurrentSnapshot_versions]
  · rfl

lemma openManifest_families :
    (openManifest ok v disk).versions.columnFamilies = v.columnFamilies := by
  rw [openManifest]
  split_ifs
  · rfl
  · exact createManifestFile_families

lemma writeAndInstall_error {opened : Outcome K} (h : writeAndInstall ok opened patch = .ok r)
    (hr : r.error.isSome) : r.versions = opened.versions := by
  unfold writeAndInstall at h
  simp only at h
  split_ifs at h with hw
  · rw [← Except.ok.inj h, writePatches_versions]
  · obtain ⟨families, -, h⟩ := bind_eq_ok.mp h
    rw [← Except.ok.inj h] at hr
    exact absurd hr hw

lemma families_of_error (h : logAndApply ok v disk options patch = .ok r) (hr : r.error.isSome) :
    ∃ f₁, setRedoLog (v.registerFamily options patch) patch = .ok f₁ ∧
      dropColumnFamily f₁ patch = .ok r.versions.columnFamilies := by
  obtain ⟨f₁, h₁, h⟩ := bind_eq_ok.mp h
  obtain ⟨f₂, h₂, h⟩ := bind_eq_ok.mp h
  have hopened : (openManifest ok { v with columnFamilies := f₂ } disk).versions.columnFamilies =
      f₂ :=
    openManifest_families
  refine ⟨f₁, h₁, h₂.trans (congrArg Except.ok ?_)⟩
  simp only at h
  split_ifs at h with hfail
  · rw [← Except.ok.inj h, hopened]
  · rw [writeAndInstall_error h hr, hopened]
  · rw [writeAndInstall_error h hr, hopened]

/-- With the manifest open and no failing operation the call returns no error: the families are
changed in four steps, and the manifest ends with the patch that carries the numbers. -/
lemma logAndApply_never (hopen : v.logFile = true)
    (h : logAndApply (fun _ => true) v disk options patch = .ok r) :
    ∃ f₁ f₂ f₃, setRedoLog (v.registerFamily options patch) patch = .ok f₁ ∧
      dropColumnFamily f₁ patch = .ok f₂ ∧ applyFiles f₂ patch = .ok f₃ ∧ r.error = none ∧
      r.disk = v.writePatch disk (v.completePatch (v.registerFamily options patch) patch) ∧
      r.versions = { v with
        columnFamilies := f₃
        redoLogNumber := patch.redoLogNumber.getD v.redoLogNumber
        prevLogNumber := patch.prevLogNumber.getD v.prevLogNumber
        logFile := true } := by
  obtain ⟨f₁, h₁, h⟩ := bind_eq_ok.mp h
  obtain ⟨f₂, h₂, h⟩ := bind_eq_ok.mp h
  simp only [openManifest, hopen, if_true, Option.isSome_none, Bool.false_eq_true, if_false] at h
  obtain ⟨f₃, h₃, h⟩ := bind_eq_ok.mp h
  obtain rfl := Except.ok.inj h
  exact ⟨f₁, f₂, f₃, h₁, h₂, h₃, rfl, rfl, rfl⟩

end Faults

section Families
variable {s t : ColumnFamilySet K} {patch : VersionPatch K}

lemma modify_eq_self_iff {α : Type*} {l : List α} {p : ℕ} {f : α → α} :
    l.modify p f = l ↔ ∀ a, l[p]? = some a → f a = a := by
  constructor
  · intro h a ha
    have hget := congrArg (fun l => l[p]?) h
    simp only [getElem?_modify_eq, ha, Option.map_eq_map, Option.map_some] at hget
    exact Option.some.inj hget
  · intro h
    refine ext_getElem? fun q => ?_
    rw [getElem?_modify]
    cases hq : l[q]? with
    | none => rfl
    | some a =>
      by_cases hpq : p = q
      · simp [hpq, h a (hpq ▸ hq)]
      · simp [hpq]

lemma dereference_eq_ok {id p : ℕ} : s.dereference id = .ok p ↔ s.getColumnFamily id = some p := by
  rw [ColumnFamilySet.dereference]
  cases s.getColumnFamily id <;> simp

lemma length_setRedoLog (h : setRedoLog s patch = .ok t) : t.impls.length = s.impls.length := by
  unfold setRedoLog at h
  cases hr : patch.redoLog with
  | none =>
    rw [hr] at h
    rw [Except.ok.inj h]
  | some r =>
    rw [hr] at h
    obtain ⟨p, -, rfl⟩ := map_eq_ok.mp h
    simp [ColumnFamilySet.modify]

lemma length_drop (p : ℕ) : (s.drop p).impls.length = s.impls.length := by
  rw [ColumnFamilySet.drop]
  split
  · rfl
  · simp [ColumnFamilySet.modify]

lemma length_dropColumnFamily (h : dropColumnFamily s patch = .ok t) :
    t.impls.length = s.impls.length := by
  unfold dropColumnFamily at h
  cases hd : patch.cfDeletion with
  | none =>
    rw [hd] at h
    rw [Except.ok.inj h]
  | some id =>
    rw [hd] at h
    obtain ⟨p, -, rfl⟩ := map_eq_ok.mp h
    exact length_drop p

lemma drop_impls_eq (p : ℕ) :
    (s.drop p).impls = s.impls.modify p fun c => { c with dropped := true } := by
  cases hp : s.impls[p]? with
  | some cfd => exact drop_impls hp
  | none =>
    have hlen : s.impls.length ≤ p := List.getElem?_eq_none_iff.mp hp
    simp [ColumnFamilySet.drop, hp, modify_eq_self hlen]

lemma setRedoLog_spec (h : setRedoLog s patch = .ok t) :
    t.columnFamilyImpls = s.columnFamilyImpls ∧
      ∀ r p, patch.redoLog = some r → s.getColumnFamily r.cfid = some p →
        t.impls = s.impls.modify p fun c => { c with redoLogNumber := r.number } := by
  unfold setRedoLog at h
  cases hr : patch.redoLog with
  | none =>
    rw [hr] at h
    rw [Except.ok.inj h]
    exact ⟨rfl, fun r p hno => by cases hno⟩
  | some r =>
    rw [hr] at h
    obtain ⟨q, hq, rfl⟩ := map_eq_ok.mp h
    refine ⟨rfl, fun r' p hr' hp => ?_⟩
    obtain rfl := Option.some.inj hr'
    obtain rfl : q = p := Option.some.inj ((dereference_eq_ok.mp hq).symm.trans hp)
    rfl

lemma setRedoLog_none (h : setRedoLog s patch = .ok t) (hr : patch.redoLog = none) : t = s := by
  rw [setRedoLog, hr] at h
  exact (Except.ok.inj h).symm

lemma setRedoLog_some {r : RedoLog} (h : setRedoLog s patch = .ok t) (hr : patch.redoLog = some r) :
    ∃ p, s.getColumnFamily r.cfid = some p := by
  rw [setRedoLog, hr] at h
  obtain ⟨p, hp, -⟩ := map_eq_ok.mp h
  exact ⟨p, dereference_eq_ok.mp hp⟩

lemma dropColumnFamily_spec (h : dropColumnFamily s patch = .ok t) :
    patch.cfDeletion = none ∧ t = s ∨
      ∃ id p, patch.cfDeletion = some id ∧ s.getColumnFamily id = some p ∧
        t.impls = s.impls.modify p fun c => { c with dropped := true } := by
  unfold dropColumnFamily at h
  cases hd : patch.cfDeletion with
  | none =>
    rw [hd] at h
    exact Or.inl ⟨rfl, (Except.ok.inj h).symm⟩
  | some id =>
    rw [hd] at h
    obtain ⟨p, hp, rfl⟩ := map_eq_ok.mp h
    exact Or.inr ⟨id, p, rfl, dereference_eq_ok.mp hp, drop_impls_eq p⟩

lemma unchanged_iff {f₁ f₂ : ColumnFamilySet K} (hadds : patch.cfCreation = none)
    (h₁ : setRedoLog s patch = .ok f₁) (h₂ : dropColumnFamily f₁ patch = .ok f₂) :
    f₂.impls = s.impls ↔ Unchanging s patch := by
  obtain ⟨hmap, hmodify⟩ := setRedoLog_spec h₁
  constructor
  · intro heq
    refine ⟨hadds, fun r p cfd hr hp hcfd => ?_, fun id p cfd hd hp hcfd => ?_⟩
    · have hfirst : f₁.impls[p]? = some { cfd with redoLogNumber := r.number } := by
        rw [hmodify r p hr hp, getElem?_modify_eq, hcfd]
        rfl
      obtain ⟨-, rfl⟩ | ⟨id, q, -, -, hdrop⟩ := dropColumnFamily_spec h₂
      · rw [heq, hcfd] at hfirst
        exact congrArg ColumnFamilyImpl.redoLogNumber (Option.some.inj hfirst)
      · have hlast : f₂.impls[p]? = some cfd := by rw [heq, hcfd]
        rw [hdrop] at hlast
        obtain ⟨c, hc, hcfd'⟩ := getElem?_modify_some.mp hlast
        rw [hfirst] at hc
        rw [hcfd', ← Option.some.inj hc]
        split_ifs <;> rfl
    · obtain ⟨hno, -⟩ | ⟨id', q, hd', hq, hdrop⟩ := dropColumnFamily_spec h₂
      · simp [hno] at hd
      · obtain rfl : id' = id := Option.some.inj (hd'.symm.trans hd)
        rw [ColumnFamilySet.getColumnFamily, hmap] at hq
        obtain rfl : q = p := Option.some.inj (hq.symm.trans hp)
        have hlast : f₂.impls[q]? = some cfd := by rw [heq, hcfd]
        rw [hdrop] at hlast
        obtain ⟨c, -, hcfd'⟩ := getElem?_modify_some.mp hlast
        rw [hcfd', if_pos rfl]
  · intro h
    have hfirst : f₁.impls = s.impls := by
      cases hr : patch.redoLog with
      | none => rw [setRedoLog_none h₁ hr]
      | some r =>
        obtain ⟨p, hp⟩ := setRedoLog_some h₁ hr
        rw [hmodify r p hr hp, modify_eq_self_iff]
        intro cfd hcfd
        rw [← h.redo r p cfd hr hp hcfd]
    obtain ⟨-, rfl⟩ | ⟨id, p, hd, hp, hdrop⟩ := dropColumnFamily_spec h₂
    · exact hfirst
    · rw [ColumnFamilySet.getColumnFamily, hmap] at hp
      rw [hdrop, hfirst, modify_eq_self_iff]
      intro cfd hcfd
      rw [← h.drops id p cfd hd hp hcfd]

end Families

/-- A call that returns an error leaves the families, with their flags, log numbers and versions, as
they were exactly if the patch changes nothing before the manifest is written. -/
theorem unchanged_on_error_iff {ok : Faults} {v : VersionSet K} {disk : Manifests K}
    {options : ColumnFamilyOptions} {patch : VersionPatch K} {r : Outcome K}
    (h : logAndApply ok v disk options patch = .ok r) (hr : r.error.isSome) :
    r.versions.columnFamilies.impls = v.columnFamilies.impls ↔
      Unchanging v.columnFamilies patch := by
  obtain ⟨f₁, h₁, h₂⟩ := families_of_error h hr
  cases hc : patch.cfCreation with
  | none =>
    rw [registerFamily, hc] at h₁
    exact unchanged_iff hc h₁ h₂
  | some c =>
    have hlen : r.versions.columnFamilies.impls.length = v.columnFamilies.impls.length + 1 := by
      rw [length_dropColumnFamily h₂, length_setRedoLog h₁, registerFamily, hc]
      simp [ColumnFamilySet.newColumnFamily]
    constructor
    · intro heq
      rw [heq] at hlen
      omega
    · intro hu
      cases hc.symm.trans hu.adds

def bytewise : ColumnFamilyOptions := ⟨"::mai::BitwiseComparator"⟩

def defaultOnly : VersionSet ℕ :=
  { (VersionSet.new : VersionSet ℕ) with
    columnFamilies := ColumnFamilySet.empty.newColumnFamily bytewise "default" 0 }

theorem unchanged_on_failed_snapshot :
    ∃ r, logAndApply (fun n => n < 2) defaultOnly Manifests.empty bytewise
      { redoLogNumber := some 3 } = .ok r ∧
      r.error.isSome ∧ r.versions.columnFamilies.impls = defaultOnly.columnFamilies.impls := by
  obtain ⟨r, hr, herror⟩ : ∃ r, logAndApply (fun n => n < 2) defaultOnly Manifests.empty bytewise
      { redoLogNumber := some 3 } = .ok r ∧ r.error.isSome := ⟨_, rfl, by decide⟩
  refine ⟨r, hr, herror, (unchanged_on_error_iff hr herror).mpr ⟨rfl, ?_, ?_⟩⟩
  · intro r p cfd hno
    cases hno
  · intro id p cfd hno
    cases hno

/-- A family whose creation failed stays registered. -/
theorem family_kept_on_error :
    ∃ r, logAndApply (fun _ => false) defaultOnly Manifests.empty bytewise
        { cfCreation := some ⟨1, "d", "::mai::BitwiseComparator"⟩ } = .ok r ∧
      r.error.isSome ∧ r.versions.columnFamilies.impls.length = 2 ∧
        defaultOnly.columnFamilies.impls.length = 1 :=
  ⟨_, rfl, by decide, by decide, by decide⟩

end Mai.DbLogAndApplyFaults
