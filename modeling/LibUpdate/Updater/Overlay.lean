import LibUpdate.Updater.KeptCopy

/-!
# `Updater.Overlay` — what a successful run installs

The documentation says that the files of the package are laid over the install directory and that its
other files stay. The updater renames the staging directory into place instead: what is installed is
the tree that was staged, or, at the two resume points that install nothing, the tree that was there.
`KeepsOld` says when that happens to have the old files. What was left in the staging directory stays there, but for
what lies at the temporary paths of the package.
-/

namespace LibUpdate

/-- `new` is `old` with the files of `pkg` laid over it. -/
def Overlays (pkg old new : Tree) : Prop :=
  (∀ p d, pkg.fileAt p = some d → new.fileAt p = some d)
    ∧ ∀ p d, old.fileAt p = some d → pkg.get p = none → new.fileAt p = some d

/-- The resume point that the first outcomes of a run lead to, with the outcomes that remain. -/
def resumeChosen (w : World) (zip : Bytes) (s : Disk) : List Outcome → Option (Resume × List Outcome)
  | [] => none
  | e :: es =>
      match stepLoadState e s with
      | .overrun => none
      | .missing => some (.full, es)
      | .error => some (.full, es.tail)
      | .found st =>
          if updaterStateValidate st w.installDir (w.installDir ++ stagingSuffix)
              (w.installDir ++ backupSuffix) zip ≠ 0 then some (.full, es.tail)
          else
            match es with
            | e₁ :: e₂ :: e₃ :: es =>
                some (updaterDetermineResume (stepIsDir .install e₁ s) (stepIsDir .staging e₂ s)
                  (stepIsDir .backup e₃ s) st, es)
            | _ => none

/-- What the removal before the extraction leaves in the staging directory. Its failure is ignored, and the package
    is laid over what is left. -/
def leftInStaging (s : Disk) : List Outcome → Tree
  | _ :: e :: _ => (stepRemoveTree .staging e s).2.staging.getD []
  | _ => []

/-- When the tree that the run comes to install has the files of the package and those of `old`. -/
def KeepsOld (w : World) (zip : Bytes) (old : Tree) (s : Disk) (es : List Outcome) : Prop :=
  match resumeChosen w zip s es with
  | some (.rollback, _) => ∃ t, s.backup = some t ∧ Overlays (w.package zip) old t
  | some (.postInstall, _) => ∃ t, s.install = some t ∧ Overlays (w.package zip) old t
  | some (.postBackup, _) => ∃ t, s.staging = some t ∧ Overlays (w.package zip) old t
  | some (.postExtract, _) => ∃ t, s.staging = some t ∧ Overlays (w.package zip) old t
  | some (.full, rest) => ∀ p d, old.fileAt p = some d → (w.package zip).get p = none →
      (w.cleared zip (leftInStaging s rest)).fileAt p = some d
  | none => False

/-- Laid over what was left, the package has its own files; the question is what was left. -/
theorem overlays_overlay (pkg old left : Tree) :
    Overlays pkg old (pkg.overlay left)
      ↔ ∀ p d, old.fileAt p = some d → pkg.get p = none → left.fileAt p = some d := by
  constructor
  · intro h p d hold hpkg
    rw [← FileTree.fileAt_overlay_of_get_eq_none hpkg]
    exact h.2 p d hold hpkg
  · intro h
    refine ⟨fun p d hpkg => FileTree.fileAt_overlay_top hpkg, fun p d hold hpkg => ?_⟩
    rw [FileTree.fileAt_overlay_of_get_eq_none hpkg]
    exact h p d hold hpkg

variable {w : World} {zip app : Bytes} {s : Disk} {u : Option Tree}

/-! ## The tree that a successful run installs -/

/-- If the run succeeds, `u` is installed. -/
abbrev Installs (w : World) (u : Option Tree) (p : UpdaterProg Exit) (s : Disk) : Prop :=
  Safe (updaterDevice w) anyContract (fun r t => r = .ok → t.install = u) p s

theorem installs_perform {o : Op} {f : Res o → UpdaterProg Exit}
    (hf : ∀ e r t, (updaterDevice w).step o e s = (r, t) → Installs w u (f r) t) :
    Installs w u (Prog.perform o >>= f) s :=
  fun e _ => ⟨trivial, trivial, hf e _ _ rfl⟩

theorem relaunch_installs (h : s.install = u) : Installs w u (relaunch app) s := by
  refine installs_perform fun e r t ht => ?_
  obtain rfl := (Prod.mk.inj ht).2
  split
  · intro hr
    cases hr
  · intro _
    exact h

theorem finishUpdate_installs (h : s.install = u) : Installs w u (finishUpdate app) s := by
  refine installs_perform fun e r t ht => ?_
  refine installs_perform fun e' r' t' ht' => ?_
  refine relaunch_installs ?_
  rw [(stepRemoveState_frame ht').1]
  exact ((stepRemoveTree_frame ht).1 .install (by decide)).trans h

theorem abandonUpdate_error :
    Safe (updaterDevice w) anyContract (fun r _ => r = .error) abandonUpdate s :=
  fun _ _ => ⟨trivial, trivial, fun _ _ => ⟨trivial, trivial, rfl⟩⟩

theorem abandonUpdate_installs : Installs w u abandonUpdate s := by
  refine abandonUpdate_error.mono fun r t hr hok => ?_
  rw [hr] at hok
  cases hok

theorem restoreBackup_installs : Installs w u restoreBackup s := by
  refine installs_perform fun e r t _ => ?_
  split
  · intro hr
    cases hr
  · exact abandonUpdate_installs

/-- A rollback installs the backup. -/
theorem resumeRollback_installs : Installs w s.backup (resumeRollback app) s := by
  refine installs_perform fun e r t ht => ?_
  rcases stepMove_cases ht with ⟨rfl, rfl⟩ | ⟨rfl, v, hv, _, rfl⟩
  · rw [ite_error]
    intro hr
    cases hr
  · rw [ite_ok]
    refine installs_perform fun e r t ht => ?_
    refine installs_perform fun e' r' t' ht' => ?_
    refine relaunch_installs ?_
    rw [(stepRemoveState_frame ht').1]
    exact ((stepRemoveTree_frame ht).1 .install (by decide)).trans hv.symm

/-- The second move installs what is staged. -/
theorem resumePostBackup_installs : Installs w s.staging (resumePostBackup zip app) s := by
  refine installs_perform fun e r t ht => ?_
  rcases stepMove_cases ht with ⟨rfl, rfl⟩ | ⟨rfl, v, hv, _, rfl⟩
  · rw [ite_error]
    exact restoreBackup_installs
  · rw [ite_ok]
    refine installs_perform fun e r t ht => ?_
    refine finishUpdate_installs ?_
    exact (stepSaveState_frame ht).1.trans hv.symm

theorem resumePostExtract_installs : Installs w s.staging (resumePostExtract zip app) s := by
  refine installs_perform fun e r t₁ h₁ => ?_
  split
  · exact abandonUpdate_installs
  refine installs_perform fun e r t₂ h₂ => ?_
  refine installs_perform fun e r t₃ h₃ => ?_
  rcases stepMove_cases h₃ with ⟨rfl, rfl⟩ | ⟨rfl, v, _, _, rfl⟩
  · rw [ite_error]
    exact abandonUpdate_installs
  rw [ite_ok]
  refine installs_perform fun e r t₄ h₄ => ?_
  split
  · exact restoreBackup_installs
  -- nothing before the second move touches the staging directory
  have hstg : t₄.staging = s.staging := by
    have h₂' : t₂.staging = t₁.staging := (stepRemoveTree_frame h₂).1 .staging (by decide)
    rw [(stepSaveState_frame h₄).2.1, ← (stepSaveState_frame h₁).2.1]
    exact h₂'
  rw [← hstg]
  exact resumePostBackup_installs

/-- A full update installs the package over what the removal left. -/
theorem resumeFull_final {es : List Outcome} {e₀ : Outcome}
    (h : ((updaterDevice w).run (resumeFull zip app) es s).result = some .ok) :
    ((updaterDevice w).run (resumeFull zip app) es s).final.install
      = some ((w.package zip).overlay (w.cleared zip (leftInStaging s (e₀ :: es)))) := by
  obtain ⟨e, es, r, t, rfl, hremove, h, hfinal⟩ := (updaterDevice w).result_perform h
  rw [show leftInStaging s (e₀ :: e :: es) = t.staging.getD [] by
    show (stepRemoveTree .staging e s).2.staging.getD [] = _
    rw [show stepRemoveTree .staging e s = (r, t) from hremove]]
  rw [resumeFull, hfinal]
  obtain ⟨e', es, r', t', rfl, hextract, h, hfinal'⟩ := (updaterDevice w).result_perform h
  rw [hfinal']
  have hok : r' = .ok := by
    apply Decidable.not_not.mp
    intro hne
    rw [if_pos hne] at h
    exact absurd ((abandonUpdate_error.run_sound fun _ _ => trivial).2 _ h) (by decide)
  rw [if_neg (Decidable.not_not.mpr hok)] at h ⊢
  -- the run succeeds, so the extraction did
  cases e' with
  | ok =>
      obtain ⟨rfl, rfl⟩ := Prod.mk.inj hextract
      exact (resumePostExtract_installs.run_sound fun _ _ => trivial).2 _ h rfl
  | fail =>
      rw [← (Prod.mk.inj hextract).1] at hok
      cases hok
  | halfway left =>
      rw [← (Prod.mk.inj hextract).1] at hok
      cases hok

/-! ## From the command line -/

/-- Removing the state file changes nothing for the update. -/
theorem leftInStaging_congr {t : Disk} (h : t.staging = s.staging) (es : List Outcome) :
    leftInStaging t es = leftInStaging s es := by
  match es with
  | [] => rfl
  | [_] => rfl
  | _ :: e :: _ =>
      unfold leftInStaging stepRemoveTree
      rw [Disk.get_staging, Disk.get_staging, h]
      cases hs : s.staging with
      | none => simp [h, hs]
      | some v => cases e <;> simp [h, hs]

/-- What is installed when `main` succeeds at its resume point. -/
def treeInstalled (w : World) (zip : Bytes) (s : Disk) (resume : Resume) (rest : List Outcome) : Option Tree :=
  match resume with
  | .rollback => s.backup
  | .postInstall => s.install
  | .postBackup => s.staging
  | .postExtract => s.staging
  | .full => some ((w.package zip).overlay (w.cleared zip (leftInStaging s rest)))

theorem waitAndResume_final {a : Args} {resume : Resume} {es : List Outcome}
    (h : ((updaterDevice w).run (waitAndResume a resume) es s).result = some .ok) :
    ((updaterDevice w).run (waitAndResume a resume) es s).final.install = treeInstalled w a.zip s resume es := by
  obtain ⟨e, es, r, t, rfl, hwait, h, hfinal⟩ := (updaterDevice w).result_perform h
  rw [waitAndResume, hfinal]
  obtain rfl : s = t := (Prod.mk.inj hwait).2
  split at h
  · cases h
  · next hr =>
    rw [if_neg hr]
    cases happ : joinInstallApp a.target a.app with
    | none => rw [happ] at h; cases h
    | some app =>
        rw [happ] at h
        dsimp only at h ⊢
        cases resume with
        | rollback => exact (resumeRollback_installs.run_sound fun _ _ => trivial).2 _ h rfl
        | postInstall => exact ((finishUpdate_installs rfl).run_sound fun _ _ => trivial).2 _ h rfl
        | postBackup => exact (resumePostBackup_installs.run_sound fun _ _ => trivial).2 _ h rfl
        | postExtract => exact (resumePostExtract_installs.run_sound fun _ _ => trivial).2 _ h rfl
        | full => exact resumeFull_final h

/-- A full update after the state file was removed installs what it would install with it. -/
theorem full_after_removeState {a : Args} {es : List Outcome}
    (h : ((updaterDevice w).run (updaterStateRemove >>= fun _ => waitAndResume a .full) es s).result = some .ok) :
    ((updaterDevice w).run (updaterStateRemove >>= fun _ => waitAndResume a .full) es s).final.install
      = treeInstalled w a.zip s .full es.tail := by
  obtain ⟨e, es, r, t, rfl, hremove, h, hfinal⟩ := (updaterDevice w).result_perform h
  rw [hfinal, waitAndResume_final h]
  unfold treeInstalled
  rw [leftInStaging_congr (stepRemoveState_frame hremove).2.1, List.tail_cons]

theorem loadAndResume_final {a : Args} {es : List Outcome} (htarget : a.target = w.installDir)
    (h : ((updaterDevice w).run (loadAndResume a) es s).result = some .ok) :
    ∃ resume rest, resumeChosen w a.zip s es = some (resume, rest)
      ∧ ((updaterDevice w).run (loadAndResume a) es s).final.install = treeInstalled w a.zip s resume rest := by
  obtain ⟨e, es, r, t, rfl, hload, h, hfinal⟩ := (updaterDevice w).result_perform h
  rw [loadAndResume, hfinal]
  obtain ⟨rfl, rfl⟩ := Prod.mk.inj hload
  cases hr : stepLoadState e s with
  | overrun => rw [hr] at h; cases h
  | missing =>
      rw [hr] at h
      exact ⟨.full, es, by simp only [resumeChosen, hr], waitAndResume_final h⟩
  | error =>
      rw [hr] at h
      exact ⟨.full, es.tail, by simp only [resumeChosen, hr], full_after_removeState h⟩
  | found st =>
      rw [hr] at h
      dsimp only at h ⊢
      rw [htarget] at h ⊢
      split at h
      · next hval =>
        rw [if_pos hval]
        exact ⟨.full, es.tail, by simp only [resumeChosen, hr, if_pos hval], full_after_removeState h⟩
      · next hval =>
        rw [if_neg hval]
        obtain ⟨e₁, es, r, t, rfl, h₁, h, hfinal₁⟩ := (updaterDevice w).result_perform h
        obtain ⟨rfl, rfl⟩ := Prod.mk.inj h₁
        obtain ⟨e₂, es, r, t, rfl, h₂, h, hfinal₂⟩ := (updaterDevice w).result_perform h
        obtain ⟨rfl, rfl⟩ := Prod.mk.inj h₂
        obtain ⟨e₃, es, r, t, rfl, h₃, h, hfinal₃⟩ := (updaterDevice w).result_perform h
        obtain ⟨rfl, rfl⟩ := Prod.mk.inj h₃
        refine ⟨updaterDetermineResume (stepIsDir .install e₁ s) (stepIsDir .staging e₂ s)
          (stepIsDir .backup e₃ s) st, es, by simp only [resumeChosen, hr, if_neg hval], ?_⟩
        rw [hfinal₁, hfinal₂, hfinal₃]
        exact waitAndResume_final h

/-- **A successful update keeps the old files exactly when they were already in the tree it installs.**
    For every start, every old tree and every run that returns success, the installed tree is the
    package laid over the old tree if and only if `KeepsOld` holds of the start. -/
theorem successful_update_overlays (w : World) (argv : List Bytes) (a : Args) (old : Tree) (s : Disk)
    (es : List Outcome) (hargs : parseArgs argv = some a) (htarget : a.target = w.installDir)
    (hresult : ((updaterDevice w).run (main argv) es s).result = some .ok) :
    (∃ new, ((updaterDevice w).run (main argv) es s).final.install = some new
        ∧ Overlays (w.package a.zip) old new)
      ↔ KeepsOld w a.zip old s es := by
  -- a run that succeeds has got past the path checks
  have hmain : main argv = loadAndResume a := by
    unfold main at hresult ⊢
    rw [hargs] at hresult ⊢
    dsimp only at hresult ⊢
    unfold updaterMain at hresult ⊢
    split at hresult
    · split at hresult
      · cases es <;> cases hresult
      · next hpaths => rw [if_neg hpaths]
    · cases es <;> cases hresult
  rw [hmain] at hresult ⊢
  obtain ⟨resume, rest, hchosen, hinst⟩ := loadAndResume_final htarget hresult
  rw [hinst]
  unfold KeepsOld
  rw [hchosen]
  cases resume with
  | rollback => exact Iff.rfl
  | postInstall => exact Iff.rfl
  | postBackup => exact Iff.rfl
  | postExtract => exact Iff.rfl
  | full =>
      dsimp only
      rw [← overlays_overlay]
      constructor
      · rintro ⟨new, hnew, h⟩
        rw [← Option.some.inj hnew] at h
        exact h
      · exact fun h => ⟨_, rfl, h⟩

/-- The sample update replaces the only old file, so nothing is lost. -/
theorem successful_update_overlays_sample :
    ∃ new, ((updaterDevice sampleWorld).run (main sampleArgv) (List.replicate 20 .ok) sampleDisk).final.install
        = some new ∧ Overlays (sampleWorld.package (ascii "/tmp/p.zip")) [([ascii "app"], .file (ascii "1"))] new :=
  (successful_update_overlays sampleWorld sampleArgv ⟨ascii "/tmp/p.zip", ascii "/opt/app", 7, ascii "app"⟩
      _ sampleDisk _ (by decide +kernel) rfl (by decide +kernel)).mpr (by
    show ∀ p d, FileTree.fileAt [([ascii "app"], .file (ascii "1"))] p = some d → _ → _
    intro p d hold hpkg
    by_cases hp : p = [ascii "app"]
    · subst hp
      exact absurd hpkg (by decide +kernel)
    · have hnone : FileTree.get ([([ascii "app"], .file (ascii "1"))] : Tree) p = none := by
        simpa [FileTree.get] using hp
      rw [FileTree.fileAt, hnone] at hold
      cases hold)

/-- An installation with a file that the package does not have. -/
def markedDisk : Disk :=
  { sampleDisk with install := some [([ascii "app"], .file (ascii "1")),
      ([ascii "pre_update_marker.txt"], .file (ascii "keep"))] }

/-- The update succeeds and the file is gone. -/
theorem marker_not_kept :
    ((updaterDevice sampleWorld).run (main sampleArgv) (List.replicate 20 .ok) markedDisk).result = some .ok
      ∧ (markedDisk.install.getD []).fileAt [ascii "pre_update_marker.txt"] = some (ascii "keep")
      ∧ (sampleWorld.package (ascii "/tmp/p.zip")).get [ascii "pre_update_marker.txt"] = none
      ∧ (((updaterDevice sampleWorld).run (main sampleArgv) (List.replicate 20 .ok)
          markedDisk).final.install.getD []).fileAt [ascii "pre_update_marker.txt"] = none := by
  decide +kernel

end LibUpdate
