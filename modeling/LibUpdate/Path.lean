import LibUpdate.Foundation.Bytes

/-!
# `Path` — path checks and the absolute form (`update_path.c`, POSIX build)

Every path that reaches the file system goes through `updateValidatePath`: bounded length, no control
characters, no `.` or `..` segment, and on demand absolute. `updateValidateInstallPaths` ties the
staging, backup and state names to the install directory.
-/

namespace LibUpdate

/-- `update_status_t`. -/
inductive UpdateStatus where
  | ok
  | available
  | notAvailable
  | error
  | noop
  | started
  deriving DecidableEq, Repr

/-- `UPDATE_PATH_MAX` (and `PATH_MAX`, `UPDATER_PATH_CAP`, `UPDATE_EXTRACT_PATH_MAX`). -/
def pathMax : Nat := 4096

/-- Both separators, on every platform: what the path checks split at. -/
def isAnySep (c : UInt8) : Bool := c == ch '/' || c == ch '\\'

def pathHasBadChars (path : Bytes) : Bool := path.any (· < 32)

def pathSegmentInvalid (seg : Bytes) : Bool :=
  seg.length == 0 || seg == ascii "." || seg == ascii ".."

/-- The scan skips empty segments (repeated or leading separators) and tests the others. -/
def pathRejectsDotSegments (path : Bytes) : Bool :=
  (path.splitOnP isAnySep).any fun seg => seg.length != 0 && pathSegmentInvalid seg

def pathIsAbsolute (path : Bytes) : Bool := path.head? == some (ch '/')

/-- `update_validate_path`; the flag is `UPDATE_PATH_REQUIRE_ABSOLUTE`. -/
def updateValidatePath (path : Bytes) (requireAbsolute : Bool) : UpdateStatus :=
  if path = [] then .error
  else if path.length ≥ pathMax then .error
  else if pathHasBadChars path then .error
  else if pathRejectsDotSegments path then .error
  else if requireAbsolute && !pathIsAbsolute path then .error
  else .ok

/-- `update_path_make_absolute`; `cwd` is what `getcwd` gives (`none` when it fails). -/
def updatePathMakeAbsolute (cwd : Option Bytes) (path : Bytes) (outCap : Nat) : Option Bytes :=
  if path = [] || outCap == 0 then none
  else if pathHasBadChars path || pathRejectsDotSegments path then none
  else if pathIsAbsolute path then snprintf outCap path
  else cwd.bind fun cwd => snprintf outCap (cwd ++ ascii "/" ++ path)

/-! ## The names beside the install directory -/

def stagingSuffix : Bytes := ascii ".update_staging"
def backupSuffix : Bytes := ascii ".update_backup"
def stateSuffix : Bytes := ascii ".update_state.json"

/-- `update_validate_install_paths`. -/
def updateValidateInstallPaths (zipPath installDir stagingDir backupDir statePath : Bytes) : UpdateStatus :=
  if updateValidatePath zipPath false ≠ .ok then .error
  else if updateValidatePath installDir true ≠ .ok then .error
  else
    match snprintf pathMax (installDir ++ stagingSuffix), snprintf pathMax (installDir ++ backupSuffix),
        snprintf pathMax (installDir ++ stateSuffix) with
    | some expectStaging, some expectBackup, some expectState =>
        if stagingDir ≠ expectStaging || backupDir ≠ expectBackup || statePath ≠ expectState then .error
        else if updateValidatePath stagingDir true ≠ .ok || updateValidatePath backupDir true ≠ .ok
            || updateValidatePath statePath true ≠ .ok then .error
        else .ok
    | _, _, _ => .error

example : updateValidatePath (ascii "/tmp/../etc") false = .error := by decide

/-! ## What acceptance says -/

/-- A path that `updateValidatePath` accepts. -/
structure PathOk (path : Bytes) : Prop where
  nonempty : path ≠ []
  short : path.length < pathMax
  chars : ∀ c ∈ path, 32 ≤ c
  segments : ∀ seg ∈ path.splitOnP isAnySep, seg ≠ ascii "." ∧ seg ≠ ascii ".."

theorem pathHasBadChars_eq_false {path : Bytes} :
    pathHasBadChars path = false ↔ ∀ c ∈ path, 32 ≤ c := by
  simp [pathHasBadChars, UInt8.not_lt]

theorem pathRejectsDotSegments_eq_false {path : Bytes} :
    pathRejectsDotSegments path = false
      ↔ ∀ seg ∈ path.splitOnP isAnySep, seg ≠ ascii "." ∧ seg ≠ ascii ".." := by
  simp only [pathRejectsDotSegments, List.any_eq_false]
  refine forall_congr' fun seg => imp_congr_right fun _ => ?_
  by_cases hempty : seg = []
  · subst hempty
    decide
  · simp [pathSegmentInvalid, hempty]

theorem updateValidatePath_eq_ok {path : Bytes} {requireAbsolute : Bool} :
    updateValidatePath path requireAbsolute = .ok
      ↔ PathOk path ∧ (requireAbsolute = true → pathIsAbsolute path = true) := by
  unfold updateValidatePath
  constructor
  · intro h
    split at h; · cases h
    next hne =>
    split at h; · cases h
    next hlen =>
    split at h; · cases h
    next hbad =>
    split at h; · cases h
    next hdot =>
    split at h; · cases h
    next habs =>
    refine ⟨⟨hne, by omega, ?_, ?_⟩, ?_⟩
    · exact pathHasBadChars_eq_false.mp (by simpa using hbad)
    · exact pathRejectsDotSegments_eq_false.mp (by simpa using hdot)
    · intro hreq
      simpa [hreq] using habs
  · rintro ⟨hok, habs⟩
    rw [if_neg hok.nonempty, if_neg (by have := hok.short; omega),
      if_neg (by simp [pathHasBadChars_eq_false.mpr hok.chars]),
      if_neg (by simp [pathRejectsDotSegments_eq_false.mpr hok.segments]), if_neg]
    cases requireAbsolute with
    | false => simp
    | true => simp [habs rfl]

/-- The paths `updateValidateInstallPaths` accepts together: the three names are the install
    directory with its suffixes, and all five are accepted on their own. -/
structure InstallPathsOk (zipPath installDir stagingDir backupDir statePath : Bytes) : Prop where
  staging_eq : stagingDir = installDir ++ stagingSuffix
  backup_eq : backupDir = installDir ++ backupSuffix
  state_eq : statePath = installDir ++ stateSuffix
  zip : updateValidatePath zipPath false = .ok
  install : updateValidatePath installDir true = .ok
  staging : updateValidatePath stagingDir true = .ok
  backup : updateValidatePath backupDir true = .ok
  state : updateValidatePath statePath true = .ok

theorem updateValidateInstallPaths_ok {zipPath installDir stagingDir backupDir statePath : Bytes}
    (h : updateValidateInstallPaths zipPath installDir stagingDir backupDir statePath = .ok) :
    InstallPathsOk zipPath installDir stagingDir backupDir statePath := by
  unfold updateValidateInstallPaths at h
  split at h; · cases h
  next hzip =>
  split at h; · cases h
  next hinst =>
  split at h
  · next es eb est hes heb hest =>
    split at h; · cases h
    next heq =>
    split at h; · cases h
    next hval =>
    rw [snprintf_eq_some] at hes heb hest
    simp only [Bool.or_eq_true, decide_eq_true_eq, not_or, Decidable.not_not] at heq hval hzip hinst
    exact ⟨heq.1.1.trans hes.2, heq.1.2.trans heb.2, heq.2.trans hest.2, hzip, hinst, hval.1.1, hval.1.2,
      hval.2⟩
  · cases h

end LibUpdate
