import LibUpdate.System.Crash
import LibUpdate.Updater.Crashes

/-!
# `System.Recovery` — a run after cuts at any system calls

`Updater.Crashes` knows how many crashes between steps of `Updater.Main` an update survives. Here the runs are cut off
between any two calls of the system, in the middle of a removal, an extraction or a saved state, and the run after them
is one over system calls, too.

What the simulation asks of undisturbed steps is met in every run: `main` extracts where it has just removed the staging
directory, and moves directories to places that it has seen or made free.
-/

namespace LibUpdate

namespace Sys

namespace Setting

variable {w : Setting} {newMode : Nat}

/-! ## `main` calls its steps rightly -/

/-- Undisturbed, the program takes each of its steps where the call for it succeeds (`CalledRight`). With this the steps
    of an undisturbed run over system calls are those of an undisturbed run of `Updater.Main`. -/
abbrev Right (w : Setting) (p : UpdaterProg Exit) (s : Disk) : Prop :=
  Calls (updaterDevice w.world) (fun e => True → e = .ok)
    (fun o s => (True → w.Fitting o) ∧ (True → w.CalledRight o s)) p s

section

variable {zip app : Bytes} {s : Disk}

/-- The rule for one step. -/
theorem right_perform {o : LibUpdate.Op} {f : LibUpdate.Res o → UpdaterProg Exit}
    (ho : w.Fitting o ∧ w.CalledRight o s)
    (hf : ∀ r t, (updaterDevice w.world).step o .ok s = (r, t) → w.Right (f r) t) :
    w.Right (Prog.perform o >>= f) s := by
  refine Calls.perform ⟨fun _ => ho.1, fun _ => ho.2⟩ fun e r t he ht => ?_
  obtain rfl := he trivial
  exact hf r t ht

theorem relaunch_right : w.Right (relaunch app) s := by
  refine right_perform ⟨nofun, trivial⟩ fun r t _ => ?_
  split <;> trivial

theorem finishUpdate_right : w.Right (finishUpdate app) s := by
  refine right_perform ⟨nofun, trivial⟩ fun r t _ => ?_
  refine right_perform ⟨nofun, trivial⟩ fun r t _ => ?_
  exact relaunch_right

theorem abandonUpdate_right : w.Right abandonUpdate s := by
  refine right_perform ⟨nofun, trivial⟩ fun r t _ => ?_
  refine right_perform ⟨nofun, trivial⟩ fun r t _ => ?_
  trivial

theorem restoreBackup_right (hinst : s.install = none) : w.Right restoreBackup s := by
  refine right_perform ⟨nofun, hinst⟩ fun r t _ => ?_
  split
  · trivial
  · exact abandonUpdate_right

theorem resumeRollback_right (hinst : s.install = none) : w.Right (resumeRollback app) s := by
  refine right_perform ⟨nofun, hinst⟩ fun r t _ => ?_
  split
  · trivial
  · refine right_perform ⟨nofun, trivial⟩ fun r t _ => ?_
    refine right_perform ⟨nofun, trivial⟩ fun r t _ => ?_
    exact relaunch_right

theorem resumePostBackup_right (hinst : s.install = none) : w.Right (resumePostBackup zip app) s := by
  refine right_perform ⟨nofun, hinst⟩ fun r t ht => ?_
  rcases stepMove_cases ht with ⟨rfl, rfl⟩ | ⟨rfl, u, _, _, rfl⟩
  · rw [ite_error]
    exact restoreBackup_right hinst
  · rw [ite_ok]
    exact right_perform ⟨nofun, trivial⟩ fun r t _ => finishUpdate_right

theorem resumePostExtract_right : w.Right (resumePostExtract zip app) s := by
  refine right_perform ⟨nofun, trivial⟩ fun r t _ => ?_
  split
  · exact abandonUpdate_right
  refine right_perform ⟨nofun, trivial⟩ fun r t ht => ?_
  obtain rfl := stepRemoveTree_ok ht
  -- the backup has just been removed
  refine right_perform ⟨nofun, rfl⟩ fun r t ht => ?_
  rcases stepMove_cases ht with ⟨rfl, rfl⟩ | ⟨rfl, u, _, _, rfl⟩
  · rw [ite_error]
    exact abandonUpdate_right
  rw [ite_ok]
  refine right_perform ⟨nofun, trivial⟩ fun r t ht => ?_
  have hinst : t.install = none := (stepSaveState_frame ht).1
  split
  · exact restoreBackup_right hinst
  · exact resumePostBackup_right hinst

/-- The package is one that can be extracted: the paths are accepted, and the entries are such that `update_extract`
    succeeds wherever no call fails. -/
structure Extractable (w : Setting) (zip : Bytes) : Prop where
  fits : w.EntriesFit zip
  resolves : (extractDest w.cwd zip (w.placePath .staging)).isSome
  clean : ∃ entries, w.archive zip = some entries ∧ CleanArchive (w.placePath .staging) entries

theorem resumeFull_right (hzip : w.Extractable zip) : w.Right (resumeFull zip app) s := by
  have hextract : w.Fitting (.extract zip) := by
    intro zip' heq
    cases heq
    exact hzip.fits
  refine right_perform ⟨nofun, trivial⟩ fun r t ht => ?_
  obtain rfl := stepRemoveTree_ok ht
  refine right_perform ⟨hextract, rfl, hzip.resolves, hzip.clean⟩ fun r t _ => ?_
  split
  · exact abandonUpdate_right
  · exact resumePostExtract_right

/-- A run that takes up after the first move has seen no install directory. -/
theorem determineResume_install {inst stg bak : Bool} {st : UpdaterState}
    (h : updaterDetermineResume inst stg bak st = .rollback ∨ updaterDetermineResume inst stg bak st = .postBackup) :
    inst = false := by
  cases inst with
  | false => rfl
  | true =>
      unfold updaterDetermineResume at h
      cases stg <;> cases bak <;> simp at h <;> split at h <;> simp at h

theorem resumeAt_right (hzip : w.Extractable zip) {resume : Resume}
    (h : resume = .rollback ∨ resume = .postBackup → s.install = none) : w.Right (resumeAt zip app resume) s := by
  cases resume with
  | rollback => exact resumeRollback_right (h (Or.inl rfl))
  | postInstall => exact finishUpdate_right
  | postBackup => exact resumePostBackup_right (h (Or.inr rfl))
  | postExtract => exact resumePostExtract_right
  | full => exact resumeFull_right hzip

theorem waitAndResume_right {a : Args} (hzip : w.Extractable a.zip) {resume : Resume}
    (h : resume = .rollback ∨ resume = .postBackup → s.install = none) : w.Right (waitAndResume a resume) s := by
  refine right_perform ⟨nofun, trivial⟩ fun r t ht => ?_
  obtain ⟨_, rfl⟩ := Prod.mk.inj ht
  split
  · trivial
  · cases joinInstallApp a.target a.app with
    | none => trivial
    | some app => exact resumeAt_right hzip h

theorem waitAndResume_full_right {a : Args} (hzip : w.Extractable a.zip) : w.Right (waitAndResume a .full) s :=
  waitAndResume_right hzip (nofun)

theorem loadAndResume_right {a : Args} (hzip : w.Extractable a.zip) : w.Right (loadAndResume a) s := by
  refine right_perform ⟨nofun, trivial⟩ fun r t ht => ?_
  cases r with
  | overrun => trivial
  | missing => exact waitAndResume_full_right hzip
  | error => exact right_perform ⟨nofun, trivial⟩ fun r t _ => waitAndResume_full_right hzip
  | found st =>
      dsimp only
      split
      · exact right_perform ⟨nofun, trivial⟩ fun r t _ => waitAndResume_full_right hzip
      · refine right_perform ⟨nofun, trivial⟩ fun inst t₁ h₁ => ?_
        obtain ⟨rfl, rfl⟩ := Prod.mk.inj h₁
        refine right_perform ⟨nofun, trivial⟩ fun stg t₂ h₂ => ?_
        obtain ⟨rfl, rfl⟩ := Prod.mk.inj h₂
        refine right_perform ⟨nofun, trivial⟩ fun bak t₃ h₃ => ?_
        obtain ⟨rfl, rfl⟩ := Prod.mk.inj h₃
        refine waitAndResume_right hzip fun hresume => ?_
        have hseen := determineResume_install hresume
        simpa [stepIsDir] using hseen

theorem main_right {argv : List Bytes} (hzip : ∀ a, parseArgs argv = some a → w.Extractable a.zip) :
    w.Right (LibUpdate.main argv) s := by
  unfold LibUpdate.main
  cases hargs : parseArgs argv with
  | none => trivial
  | some a =>
      dsimp only
      unfold LibUpdate.updaterMain
      split
      · split
        · trivial
        · exact loadAndResume_right (hzip a hargs)
      · trivial

end

/-! ## The two runs -/

theorem Plain.not_nested (hw : w.Plain) : w.world.nested = false := by
  have hlast : w.installDir.getLast? ≠ some (ch '/') := hw.last
  simpa [World.nested, world] using hlast

/-- A command line that is taken up names an install directory that the checks accept. -/
theorem plain_of_accepted {argv : List Bytes} {a : Args} {app : Bytes} (ha : Accepted w.world argv a app)
    (hlast : w.installDir.getLast? ≠ some (ch '/')) : w.Plain := by
  obtain ⟨hok, habs⟩ := updateValidatePath_eq_ok.mp (updateValidateInstallPaths_ok ha.paths).install
  exact ⟨hok, habs rfl, hlast⟩

/-- What an update that is done shows on the file system: the install directory holds the package, the two other
    directories and the state file are gone, and everything else is as it was. -/
structure Installed (w : Setting) (zip : Bytes) (origin t : Fs) : Prop where
  install : Shows t (w.spot (endingOf .install)) (some (w.world.package zip))
  gone : ∀ x ∈ [stagingSuffix, backupSuffix, stateSuffix], t.get (w.spot x) = none
  outside : ∀ q, (∀ x ∈ endings, ¬ w.spot x <+: q) → t.get q = origin.get q

theorem installed_of_done {zip : Bytes} {tame : Prop} {origin : Fs} {t : Volume} {s : Disk}
    (hviews : w.Views tame origin t s) (hdone : Done w.world zip s) : w.Installed zip origin t.1 := by
  have hinstall := hviews.place .install
  have hstaging := hviews.place .staging
  have hbackup := hviews.place .backup
  rw [show s.get .install = s.install from rfl, hdone.install] at hinstall
  rw [show s.get .staging = s.staging from rfl, hdone.staging] at hstaging
  rw [show s.get .backup = s.backup from rfl, hdone.backup] at hbackup
  refine ⟨hinstall, ?_, hviews.outside⟩
  have hstate : t.1.get (w.spot stateSuffix) = none := by
    -- there is neither a file nor a directory
    have hdata := hviews.state.symm.trans hdone.state
    have hdir := hviews.files stateSuffix List.mem_cons_self
    cases hget : t.1.get (w.spot stateSuffix) with
    | none => rfl
    | some n =>
        cases n with
        | dir => exact absurd (FileTree.isDir_iff.mpr (Or.inr hget)) (by rw [hdir]; exact Bool.false_ne_true)
        | file f =>
            unfold dataAt FileTree.fileAt at hdata
            rw [hget] at hdata
            cases hdata
  intro x hx
  simp only [List.mem_cons, List.not_mem_nil, or_false] at hx
  rcases hx with rfl | rfl | rfl
  · exact hstaging
  · exact hbackup
  · exact hstate

/-- An installation that can be updated from this package: what is there are directories of moderate depth and no
    state file, the names beside the install directory lie beside it, and the state files read back. -/
structure Updatable (w : Setting) (zip : Bytes) (t : Fs) : Prop where
  last : w.installDir.getLast? ≠ some (ch '/')
  reads : ReadsBack .installBackedUp w.installDir zip
  ready : w.Ready t
  fits : ∀ p, w.FitsAt t p
  installed : t.get (w.spot (endingOf .install)) = some .dir
  fresh : t.get (w.spot stateSuffix) = none

/-- Up to three runs that are cut off, and one that is not. -/
theorem Updatable.recovers (newMode : Nat) {w : Setting} {argv : List Bytes} {a : Args} {app : Bytes}
    (ha : Accepted w.world argv a app) (hzip : w.Extractable a.zip) {t : Volume} (h : w.Updatable a.zip t.1)
    {cuts : List (List Outcome)} (hcuts : ∀ es ∈ cuts, CutOff (Undisturbed True) es) (hthree : cuts.length ≤ 3)
    {turns : Nat → Outcome} (hturns : ∀ i, Undisturbed True (turns i)) :
    ∃ n, ∀ m, n ≤ m →
      let again := (device newMode).run (updaterMain w.cwd w.archive argv) ((List.range m).map turns)
        ((device newMode).cutRuns (updaterMain w.cwd w.archive argv) cuts t)
      again.result = some .ok ∧ w.Installed a.zip t.1 again.final.1 := by
  have hw : w.Plain := plain_of_accepted ha h.last
  have hargs : ∀ b, parseArgs argv = some b → b = a := fun b hb => Option.some.inj (hb.symm.trans ha.parse)
  have hexpand : updaterMain w.cwd w.archive argv = (LibUpdate.main argv).expand w.carryOut :=
    updaterMain_expand ⟨argv, fun b hb => by rw [hargs b hb]; exact ha.target⟩
  have hright : ∀ s, w.Right (LibUpdate.main argv) s := fun s =>
    main_right fun b hb => by rw [hargs b hb]; exact hzip
  have himpl := carryOut_implements newMode hw (fun _ : True => ha.state_short) (fun hstrict : True => hstrict) t.1
  have hgood : True → LibUpdate.Outcome.ok = .ok := fun _ => rfl
  have hnone : (w.diskOf t.1).state = none := by
    show dataAt t.1 (w.spot stateSuffix) = none
    unfold dataAt FileTree.fileAt
    rw [h.fresh]
    rfl
  -- the runs that are cut off are runs of `Updater.Main` that have crashed
  obtain ⟨crashes, hlen, hcrashes, hviews⟩ :=
    himpl.cutRuns hgood (undisturbed_fineOutcome True) hright (h.ready.views fun _ => h.fits) cuts hcuts
  rw [← hexpand] at hviews
  obtain ⟨n, hn⟩ := (device newMode).run_returns (updaterMain w.cwd w.archive argv) turns
    ((device newMode).cutRuns (updaterMain w.cwd w.archive argv) cuts t)
  refine ⟨n, fun m hm => ?_⟩
  intro again
  obtain ⟨r, hr⟩ := Option.isSome_iff_exists.mp (hn m hm)
  have hnothing : ([] : List Outcome).length ≤ 1 := Nat.zero_le 1
  obtain ⟨_, hends⟩ := himpl.run hgood (undisturbed_fineOutcome True) (hright _) hviews (forall_turns hturns m) hnothing
  rw [← hexpand] at hends
  obtain ⟨s', hviews', es'', hes'', hresult, hfinal⟩ := hends r hr
  -- and the last one is one of `Updater.Main` that is not disturbed
  have hsafe := survives_crashes ha hw.not_nested h.reads (treeAt_eq_some h.installed) hnone crashes
    (fun es hes => (hcrashes es hes).mono fun e he => he trivial) (by omega)
  obtain ⟨rfl, hdone⟩ :=
    (hsafe.run_sound fun ev hev => hes'' _ ((updaterDevice w.world).outcome_mem hev) trivial).2 r hresult
  rw [hfinal] at hdone
  exact ⟨hr, installed_of_done hviews' hdone⟩

/-- **Recovery from cuts at any system calls.** Start with a tree installed and no state file. Let up to three runs of
    calls that are not disturbed be cut off, each after any of its calls or in the next one, however that one turns out:
    between two removals in a directory that is being removed, in the middle of a file that is extracted, or with half a
    state file written. Then the next run succeeds on any sequence of undisturbed calls that is long enough, and leaves
    the package installed and nothing else. -/
theorem recovers_from_cut_calls (newMode : Nat) (w : Setting) (argv : List Bytes) (a : Args) (app : Bytes)
    (ha : Accepted w.world argv a app) (hlast : w.installDir.getLast? ≠ some (ch '/'))
    (hreads : ReadsBack .installBackedUp w.installDir a.zip) (hzip : w.Extractable a.zip) (t : Volume)
    (hready : w.Ready t.1) (hfits : ∀ p, w.FitsAt t.1 p) (hinst : t.1.get (w.spot (endingOf .install)) = some .dir)
    (hstate : t.1.get (w.spot stateSuffix) = none) (cuts : List (List Outcome))
    (hcuts : ∀ es ∈ cuts, CutOff (Undisturbed True) es) (hthree : cuts.length ≤ 3) (turns : Nat → Outcome)
    (hturns : ∀ i, Undisturbed True (turns i)) :
    ∃ n, ∀ m, n ≤ m →
      let again := (device newMode).run (updaterMain w.cwd w.archive argv) ((List.range m).map turns)
        ((device newMode).cutRuns (updaterMain w.cwd w.archive argv) cuts t)
      again.result = some .ok ∧ w.Installed a.zip t.1 again.final.1 := by
  exact Updatable.recovers newMode ha hzip ⟨hlast, hreads, hready, hfits, hinst, hstate⟩ hcuts hthree hturns

theorem accepted_sampleSetting : Accepted sampleSetting.world sampleArgv
    ⟨ascii "/tmp/p.zip", ascii "/opt/app", 7, ascii "app"⟩ (ascii "/opt/app/app") where
  parse := by decide +kernel
  target := rfl
  paths := by decide +kernel
  join := by decide +kernel
  app := by decide +kernel

/-- What is in the file system fits into the buffers if each of its names does. -/
theorem fitsAt_of_forall {t : Fs} {p : Place} (h : ∀ n ∈ t,
    (Copy.joined (w.installDir ++ stagingSuffix) (n.1.drop (w.spot (endingOf p)).length)).length < pathMax) :
    w.FitsAt t p :=
  fits_of_forall h

/-- Three runs of the sample update that are cut off, with the next call of each failing, and a run after them. -/
theorem recovers_from_cut_calls_sample :
    ∃ n, ∀ m, n ≤ m → ((device 420).run (updaterMain none sampleSetting.archive sampleArgv)
      ((List.range m).map fun _ => fineOutcome) ((device 420).cutRuns
        (updaterMain none sampleSetting.archive sampleArgv)
        [List.replicate 10 fineOutcome, List.replicate 20 fineOutcome, List.replicate 5 fineOutcome]
        sampleVolume)).result = some .ok := by
  have hfine : ∀ n, CutOff (Undisturbed True) (List.replicate n fineOutcome) := by
    intro n
    refine ⟨List.replicate n fineOutcome, [], (List.append_nil _).symm, fun e he => ?_, Nat.zero_le 1⟩
    rw [List.eq_of_mem_replicate he]
    exact undisturbed_fineOutcome True
  have hzip : sampleSetting.Extractable (ascii "/tmp/p.zip") := by
    refine ⟨?_, by decide +kernel, _, rfl, ⟨by decide +kernel, by decide +kernel, by decide +kernel, by decide +kernel⟩⟩
    intro entries harchive
    obtain rfl := Option.some.inj harchive
    decide +kernel
  have hfits : ∀ p, sampleSetting.FitsAt sampleVolume.1 p := by
    intro p
    refine fitsAt_of_forall ?_
    cases p <;> decide +kernel
  obtain ⟨n, hn⟩ := recovers_from_cut_calls 420 sampleSetting sampleArgv _ _ accepted_sampleSetting (by decide +kernel)
    (by decide +kernel) hzip sampleVolume ready_sampleVolume hfits (by decide +kernel) (by decide +kernel)
    [List.replicate 10 fineOutcome, List.replicate 20 fineOutcome, List.replicate 5 fineOutcome]
    (by simpa only [List.forall_mem_cons] using ⟨hfine 10, hfine 20, hfine 5, List.forall_mem_nil _⟩) (Nat.le_refl 3)
    (fun _ => fineOutcome) (fun _ => undisturbed_fineOutcome True)
  exact ⟨n, fun m hm => (hn m hm).1⟩

end Setting

end Sys

end LibUpdate
