import LibUpdate.Platform.Fs
import LibUpdate.Updater.Main

/-!
# `Updater.Beside` — the names beside the install directory (`update_path.c`, `updater/main.c`)

Staging, backup and state file get their names by appending to the install directory. The longer name lies beside
the directory, unless the directory is written with a separator at its end: then it is a new component, and lies
inside. `updateValidateInstallPaths` accepts both.
-/

namespace LibUpdate

/-- What the checks accept has no component `.` or `..` where the system splits it. -/
theorem PathOk.components {path : Bytes} (h : PathOk path) :
    ∀ seg ∈ path.splitOnP isPathSep, seg ≠ dot ∧ seg ≠ dotdot := by
  have hfine : ∀ c, isPathSep c = true → isAnySep c = true := by
    intro c hc
    rw [isAnySep, Bool.or_eq_true]
    exact Or.inl hc
  have hnone : ∀ w : Bytes, (∀ c ∈ w, isAnySep c = false) → w ∉ path.splitOnP isAnySep →
      ∀ seg ∈ path.splitOnP isPathSep, seg ≠ w := by
    rintro w hw hpath seg hseg rfl
    exact not_mem_splitOnP_coarsen hfine hw hpath hseg
  intro seg hseg
  refine ⟨hnone dot (by decide +kernel) (fun hmem => (h.segments dot hmem).1 rfl) seg hseg, ?_⟩
  exact hnone dotdot (by decide +kernel) (fun hmem => (h.segments dotdot hmem).2 rfl) seg hseg

/-- The path is that of the directory, or of something in it. -/
def LiesIn (dir path : Bytes) : Prop := fsPath dir <+: fsPath path

instance (dir path : Bytes) : Decidable (LiesIn dir path) := inferInstanceAs (Decidable (_ <+: _))

/-- An appended name lies in the directory exactly where the directory ends with a separator. -/
theorem liesIn_append_iff {dir suffix : Bytes} (hdir : PathOk dir) (hsuffix : ∀ c ∈ suffix, isPathSep c = false)
    (hlong : 2 < suffix.length) : LiesIn dir (dir ++ suffix) ↔ dir.getLast? = some (ch '/') := by
  rw [LiesIn, fsPath, fsPath, resolvePath_prefix_append_iff hsuffix hlong hdir.components,
    List.getLast?_eq_some_getLast hdir.nonempty]
  simp [isPathSep]

/-- **Beside, unless there is a separator at the end.** Of the names that are accepted together none is the install
    directory or lies in it, exactly if the install directory does not end with a separator. -/
theorem updateValidateInstallPaths_beside_iff {zipPath installDir stagingDir backupDir statePath : Bytes}
    (h : updateValidateInstallPaths zipPath installDir stagingDir backupDir statePath = .ok) :
    (¬ LiesIn installDir stagingDir ∧ ¬ LiesIn installDir backupDir ∧ ¬ LiesIn installDir statePath)
      ↔ installDir.getLast? ≠ some (ch '/') := by
  have hpaths := updateValidateInstallPaths_ok h
  have hinstall := (updateValidatePath_eq_ok.mp hpaths.install).1
  rw [hpaths.staging_eq, hpaths.backup_eq, hpaths.state_eq,
    liesIn_append_iff hinstall (by decide +kernel) (by decide +kernel),
    liesIn_append_iff hinstall (by decide +kernel) (by decide +kernel),
    liesIn_append_iff hinstall (by decide +kernel) (by decide +kernel)]
  exact ⟨fun hbeside => hbeside.1, fun hlast => ⟨hlast, hlast, hlast⟩⟩

/-- An install directory without a separator at its end. -/
theorem updateValidateInstallPaths_beside_iff_app :
    (¬ LiesIn (ascii "/opt/app") (ascii "/opt/app.update_staging")
        ∧ ¬ LiesIn (ascii "/opt/app") (ascii "/opt/app.update_backup")
        ∧ ¬ LiesIn (ascii "/opt/app") (ascii "/opt/app.update_state.json"))
      ↔ (ascii "/opt/app").getLast? ≠ some (ch '/') :=
  updateValidateInstallPaths_beside_iff (show updateValidateInstallPaths (ascii "/tmp/package.zip")
    (ascii "/opt/app") (ascii "/opt/app.update_staging") (ascii "/opt/app.update_backup")
    (ascii "/opt/app.update_state.json") = .ok by decide +kernel)

/-- **Inside**: with a separator at the end the three names are accepted, and lie in the directory. -/
theorem updateValidateInstallPaths_inside :
    updateValidateInstallPaths (ascii "/tmp/package.zip") (ascii "/opt/app/") (ascii "/opt/app/.update_staging")
        (ascii "/opt/app/.update_backup") (ascii "/opt/app/.update_state.json") = .ok
      ∧ LiesIn (ascii "/opt/app/") (ascii "/opt/app/.update_staging")
      ∧ LiesIn (ascii "/opt/app/") (ascii "/opt/app/.update_backup")
      ∧ LiesIn (ascii "/opt/app/") (ascii "/opt/app/.update_state.json") := by
  decide +kernel

/-- The installations between whose directories nothing moves are those whose names lie in the directory. -/
theorem World.nested_iff (w : World) (h : PathOk w.installDir) :
    w.nested = true ↔ LiesIn w.installDir (w.installDir ++ backupSuffix) := by
  rw [liesIn_append_iff h (by decide +kernel) (by decide +kernel), World.nested, beq_iff_eq]

end LibUpdate
