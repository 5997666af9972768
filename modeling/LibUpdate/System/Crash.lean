import LibUpdate.System.Simulation
import LibUpdate.Updater.Atomicity

/-!
# `System.Crash` — what the updater leaves, cut off at any system call

`Setting.carryOut_implements` takes what is known of `Updater.Main` down to the calls of the system. Every history of
runs over system calls, each cut off anywhere, is a history of `Updater.Main`; and the old tree is wholly there, in the
install directory or in the backup, until a tree with the package in it is installed.

The statements are about file systems: `Setting.Ready` says in which of them the updater can work, and `diskOf` is the
disk that one shows.
-/

namespace LibUpdate

namespace Sys

namespace Setting

variable {w : Setting} {newMode : Nat}

/-! ## Where the updater can work -/

/-- Where the updater can work: the directory around the installation is there, its three directories are directories,
    or not there, and nothing but files is where the updater has its files. A run keeps all of it, so that the next run
    can work there too. -/
structure Ready (w : Setting) (t : Fs) : Prop where
  parent : t.isDir w.parent = true
  places : ∀ p, t.fileAt (w.spot (endingOf p)) = none
  files : ∀ x ∈ [stateSuffix, partSuffix], t.isDir (w.spot x) = false

/-- What is in a directory, where it is there: the tree that `Updater.Main` has in the place of the directory. -/
def treeAt (w : Setting) (t : Fs) (p : Place) : Option Tree :=
  if t.get (w.spot (endingOf p)) = some .dir then some (viewAt t (w.spot (endingOf p))) else none

/-- The disk that a file system shows. A history over system calls starts from a file system, and the history of
    `Updater.Main` that it refines from this disk. -/
def diskOf (w : Setting) (t : Fs) : Disk where
  install := w.treeAt t .install
  staging := w.treeAt t .staging
  backup := w.treeAt t .backup
  state := dataAt t (w.spot stateSuffix)
  part := none

theorem get_diskOf (w : Setting) (t : Fs) (p : Place) : (w.diskOf t).get p = w.treeAt t p := by
  cases p <;> rfl

theorem treeAt_eq_none {t : Fs} {p : Place} (h : t.get (w.spot (endingOf p)) = none) : w.treeAt t p = none := by
  unfold treeAt
  rw [if_neg (by simp [h])]

theorem treeAt_eq_some {t : Fs} {p : Place} (h : t.get (w.spot (endingOf p)) = some .dir) :
    w.treeAt t p = some (viewAt t (w.spot (endingOf p))) := if_pos h

/-- A file system that the updater can work in shows its disk. -/
theorem Ready.views {t : Volume} (h : w.Ready t.1) {tame : Prop} (hfits : tame → ∀ p, w.FitsAt t.1 p) :
    w.Views tame t.1 t (w.diskOf t.1) := by
  refine ⟨fun p => ?_, rfl, h.files, h.parent, fun _ _ => rfl, hfits⟩
  rw [get_diskOf]
  cases hget : t.1.get (w.spot (endingOf p)) with
  | none =>
      rw [treeAt_eq_none hget]
      exact hget
  | some n =>
      cases n with
      | dir =>
          rw [treeAt_eq_some hget]
          exact shows_viewAt hget
      | file f =>
          -- there is no file where a directory belongs
          have hfile := h.places p
          unfold FileTree.fileAt at hfile
          rw [hget] at hfile
          cases hfile

/-! ## Command lines for one installation -/

/-- The command lines that are about this installation, or about none. -/
abbrev CommandLine (w : Setting) : Type := { argv : List Bytes // ∀ a, parseArgs argv = some a → a.target = w.installDir }

/-- `main`, call by call, is `Updater.Main` with each step carried out. -/
theorem updaterMain_expand (argv : w.CommandLine) :
    updaterMain w.cwd w.archive argv.1 = (LibUpdate.main argv.1).expand w.carryOut := by
  unfold updaterMain LibUpdate.main
  cases hargs : parseArgs argv.1 with
  | none => rfl
  | some a =>
      show (LibUpdate.updaterMain a).expand (carryOut ⟨a.target, w.cwd, w.archive⟩) = _
      rw [argv.2 a hargs]

/-! ## Histories -/

/-- What a history of runs over system calls leaves, each cut off where its outcomes end. -/
def leaves (newMode : Nat) (w : Setting) (runs : List (w.CommandLine × List Outcome)) (t : Volume) : Volume :=
  (device newMode).leaves (fun argv => updaterMain w.cwd w.archive argv.1) runs t

/-- **Every history of runs over system calls is one of `Updater.Main`.** Run the updater any number of times on one
    installation, with any packages, each run cut off after any of its calls and each call failing or not. What lies
    at the five names is what a history of runs of `Updater.Main` with the same command lines leaves, and nothing else
    has changed. -/
theorem history_refined (newMode : Nat) (w : Setting) (hw : w.Plain) (t : Volume) (hready : w.Ready t.1)
    (runs : List (w.CommandLine × List Outcome)) :
    ∃ runs' : List (w.CommandLine × List LibUpdate.Outcome), runs'.map Prod.fst = runs.map Prod.fst
      ∧ w.Views False t.1 (w.leaves newMode runs t)
        ((updaterDevice w.world).leaves (fun argv => LibUpdate.main argv.1) runs' (w.diskOf t.1)) := by
  have himpl := carryOut_implements newMode hw (fun h : False => h.elim) (fun h : False => h) t.1
  have hgood : False → LibUpdate.Outcome.ok = .ok := fun _ => rfl
  obtain ⟨runs', hlabels, hviews⟩ := himpl.history (fun _ h => h.elim) fineOutcome hgood
    (fun argv : w.CommandLine => LibUpdate.main argv.1) (fun argv s => calls_any (fun _ _ => ⟨fun h => h.elim, fun h => h.elim⟩) _ s)
    (hready.views fun h => h.elim) runs
  refine ⟨runs', hlabels, ?_⟩
  unfold leaves
  rw [show (fun argv : w.CommandLine => updaterMain w.cwd w.archive argv.1)
    = fun argv => (LibUpdate.main argv.1).expand w.carryOut from funext updaterMain_expand]
  exact hviews

/-! ## Extractions into nothing

A run that starts without a staging directory extracts into none, whatever its steps do before. -/

/-- Before an extraction there is no staging directory, so that what is installed is the package and nothing else. -/
def ExtractsFresh (o : LibUpdate.Op) (s : Disk) : Prop := ∀ zip, o = .extract zip → s.staging = none

/-- The step is no extraction. The parts of `main` behind the extraction are made of such steps, and there
    `ExtractsFresh` holds of itself. -/
def Extractless (o : LibUpdate.Op) : Prop := ∀ zip, o ≠ .extract zip

section

variable {zip app : Bytes} {s : Disk}

theorem relaunch_extractless : (relaunch app).Only Extractless :=
  .perform (nofun) fun r => by split <;> exact .ret

theorem finishUpdate_extractless : (finishUpdate app).Only Extractless :=
  .perform (nofun) fun _ => .perform (nofun) fun _ => relaunch_extractless

theorem abandonUpdate_extractless : abandonUpdate.Only Extractless :=
  .perform (nofun) fun _ => .perform (nofun) fun _ => .ret

theorem restoreBackup_extractless : restoreBackup.Only Extractless := by
  refine .perform (nofun) fun r => ?_
  split
  · exact .ret
  · exact abandonUpdate_extractless

theorem resumeRollback_extractless : (resumeRollback app).Only Extractless := by
  refine .perform (nofun) fun r => ?_
  split
  · exact .ret
  · exact .perform (nofun) fun _ => .perform (nofun) fun _ => relaunch_extractless

theorem resumePostBackup_extractless : (resumePostBackup zip app).Only Extractless := by
  refine .perform (nofun) fun r => ?_
  split
  · exact restoreBackup_extractless
  · exact .perform (nofun) fun _ => finishUpdate_extractless

theorem resumePostExtract_extractless : (resumePostExtract zip app).Only Extractless := by
  refine .perform (nofun) fun r => ?_
  split
  · exact abandonUpdate_extractless
  refine .perform (nofun) fun r => .perform (nofun) fun r => ?_
  split
  · exact abandonUpdate_extractless
  refine .perform (nofun) fun r => ?_
  split
  · exact restoreBackup_extractless
  · exact resumePostBackup_extractless

/-- The run extracts into no staging directory: the form in which each part of `main` is shown to meet
    `ExtractsFresh`. -/
abbrev Fresh (w : Setting) (p : UpdaterProg Exit) (s : Disk) : Prop :=
  Calls (updaterDevice w.world) (fun _ => True) ExtractsFresh p s

theorem fresh_of_extractless {p : UpdaterProg Exit} (h : p.Only Extractless) : w.Fresh p s :=
  h.calls (fun _ _ ho zip hop => absurd hop (ho zip)) s

theorem resumeAt_fresh (h : s.staging = none) (resume : Resume) : w.Fresh (resumeAt zip app resume) s := by
  cases resume with
  | rollback => exact fresh_of_extractless resumeRollback_extractless
  | postInstall => exact fresh_of_extractless finishUpdate_extractless
  | postBackup => exact fresh_of_extractless resumePostBackup_extractless
  | postExtract => exact fresh_of_extractless resumePostExtract_extractless
  | full =>
      refine Calls.perform (nofun) fun e r t _ ht => ?_
      -- there is nothing to remove
      have hsame : stepRemoveTree .staging e s = (.error, s) := by
        unfold stepRemoveTree
        rw [show s.get .staging = none from h]
      obtain ⟨_, rfl⟩ := Prod.mk.inj (hsame.symm.trans ht)
      refine Calls.perform (fun _ _ => h) fun e r t _ _ => ?_
      split
      · exact fresh_of_extractless abandonUpdate_extractless
      · exact fresh_of_extractless resumePostExtract_extractless

theorem waitAndResume_fresh {a : Args} (h : s.staging = none) (resume : Resume) :
    w.Fresh (waitAndResume a resume) s := by
  refine Calls.perform (nofun) fun e r t _ ht => ?_
  obtain ⟨_, rfl⟩ := Prod.mk.inj ht
  split
  · trivial
  · cases joinInstallApp a.target a.app with
    | none => trivial
    | some app => exact resumeAt_fresh h resume

theorem loadAndResume_fresh {a : Args} (h : s.staging = none) : w.Fresh (loadAndResume a) s := by
  have hrestart : w.Fresh (do LibUpdate.updaterStateRemove; waitAndResume a .full) s := by
    refine Calls.perform (nofun) fun e r t _ ht => waitAndResume_fresh ?_ _
    exact (stepRemoveState_frame ht).2.1.trans h
  refine Calls.perform (nofun) fun e r t _ ht => ?_
  obtain ⟨_, rfl⟩ := Prod.mk.inj ht
  cases r with
  | overrun => trivial
  | missing => exact waitAndResume_fresh h _
  | error => exact hrestart
  | found st =>
      dsimp only
      split
      · exact hrestart
      · refine Calls.perform (nofun) fun e₁ inst t₁ _ h₁ => ?_
        obtain ⟨_, rfl⟩ := Prod.mk.inj h₁
        refine Calls.perform (nofun) fun e₂ stg t₂ _ h₂ => ?_
        obtain ⟨_, rfl⟩ := Prod.mk.inj h₂
        refine Calls.perform (nofun) fun e₃ bak t₃ _ h₃ => ?_
        obtain ⟨_, rfl⟩ := Prod.mk.inj h₃
        exact waitAndResume_fresh h _

theorem main_fresh (argv : List Bytes) (h : s.staging = none) : w.Fresh (LibUpdate.main argv) s := by
  unfold LibUpdate.main
  split
  · trivial
  · unfold LibUpdate.updaterMain
    split
    · split
      · trivial
      · exact loadAndResume_fresh h
    · trivial

end

/-! ## One run -/

/-- What a run of `Updater.Main` keeps however its steps turn out is kept between any two calls, and what it ends in
    is ended in. -/
theorem run_keeps (newMode : Nat) (hw : w.Plain) {t : Volume} (hready : w.Ready t.1) (argv : w.CommandLine)
    {E : Event LibUpdate.Op LibUpdate.Outcome Disk → Prop} {I : Disk → Prop} {Q : Exit → Disk → Prop}
    (h : Safe (updaterDevice w.world) ⟨fun _ => True, E, I⟩ Q (LibUpdate.main argv.1) (w.diskOf t.1))
    (hI : I (w.diskOf t.1)) (es : List Outcome) :
    (∃ s, w.Views False t.1 ((device newMode).run (updaterMain w.cwd w.archive argv.1) es t).final s ∧ I s)
      ∧ ∀ r, ((device newMode).run (updaterMain w.cwd w.archive argv.1) es t).result = some r →
        ∃ s, w.Views False t.1 ((device newMode).run (updaterMain w.cwd w.archive argv.1) es t).final s ∧ Q r s := by
  have himpl := carryOut_implements newMode hw (fun h : False => h.elim) (fun h : False => h) t.1
  have hgood : False → LibUpdate.Outcome.ok = .ok := fun _ => rfl
  have hviews : w.Views False t.1 t (w.diskOf t.1) := hready.views fun h => h.elim
  have hsafe := himpl.safe hgood (h.crash.calls (calls_any (fun _ _ => ⟨fun h => h.elim, fun h => h.elim⟩) _ _)) hI hviews
  rw [updaterMain_expand]
  have hnone : ([] : List Outcome).length ≤ 1 := Nat.zero_le 1
  have hcut := hsafe.crash_sound ⟨_, hviews, hI⟩ (undisturbed_fineOutcome False)
    (fun e (_ : e ∈ es) h => h.elim) hnone
  rw [List.append_nil] at hcut
  exact ⟨hcut, (hsafe.run_sound fun _ _ h => h.elim).2⟩

/-- The old tree is in the install directory or in the backup, or a new one is installed: what a user finds on the file
    system wherever the power is cut. It is `Whole` of `Updater.Atomicity`, read off the paths. -/
def WholeAt (w : Setting) (new : Tree → Prop) (old : Tree) (t : Fs) : Prop :=
  Shows t (w.spot (endingOf .install)) (some old) ∨ Shows t (w.spot (endingOf .backup)) (some old)
    ∨ ∃ u, Shows t (w.spot (endingOf .install)) (some u) ∧ new u

theorem wholeAt_of_views {new : Tree → Prop} {old : Tree} {origin : Fs} {t : Volume} {s : Disk}
    (hviews : w.Views False origin t s) (h : Whole new old s) : w.WholeAt new old t.1 := by
  have hplace : ∀ p u, s.get p = some u → Shows t.1 (w.spot (endingOf p)) (some u) := by
    intro p u hu
    rw [← hu]
    exact hviews.place p
  rcases h with h | h | ⟨u, hu, hnew⟩
  · exact Or.inl (hplace .install _ h)
  · exact Or.inr (Or.inl (hplace .backup _ h))
  · exact Or.inr (Or.inr ⟨u, hplace .install _ hu, hnew⟩)

/-- **The old tree is never lost.** Start with a tree installed and no state file that fits the run. Cut the run off
    after any of its calls, each of them failing or not: the old tree is wholly in the install directory or in the
    backup, or the package is installed over some leftovers, without any where there was no staging directory at the
    start. A run that returns an error has the old tree installed or in the backup. Nothing but the five names has
    changed. -/
theorem whole_at_every_call (newMode : Nat) (w : Setting) (hw : w.Plain) (t : Volume) (hready : w.Ready t.1)
    (argv : w.CommandLine) (a : Args) (hargs : parseArgs argv.1 = some a)
    (hinst : t.1.get (w.spot (endingOf .install)) = some .dir)
    (hstate : acceptedState w.world a.zip (dataAt t.1 (w.spot stateSuffix)) = none)
    (hread : LibUpdate.updaterStateLoad (dataAt t.1 (w.spot stateSuffix)) ≠ .overrun) (es : List Outcome) :
    let old := viewAt t.1 (w.spot (endingOf .install))
    let run := (device newMode).run (updaterMain w.cwd w.archive argv.1) es t
    w.WholeAt (fun u => ∃ left, u = (w.world.package a.zip).overlay left) old run.final.1
      ∧ (t.1.get (w.spot (endingOf .staging)) = none → w.WholeAt (· = w.world.package a.zip) old run.final.1)
      ∧ (run.result = some .error → Shows run.final.1 (w.spot (endingOf .install)) (some old)
        ∨ Shows run.final.1 (w.spot (endingOf .backup)) (some old))
      ∧ ∀ q, (∀ x ∈ endings, ¬ w.spot x <+: q) → run.final.1.get q = t.1.get q := by
  intro old run
  have hstart : StartInstalled w.world a.zip old (w.diskOf t.1) := ⟨treeAt_eq_some hinst, hstate, hread⟩
  have hatomic : ∀ new : Tree → Prop, new (w.world.package a.zip) →
      Atomic w.world a.zip new False False False old (w.diskOf t.1) (LibUpdate.main argv.1) (w.diskOf t.1) :=
    fun new hpkg => main_atomic hargs (argv.2 a hargs) (Or.inl hstart) hpkg False.elim
  have hwhole : ∀ new : Tree → Prop, Whole new old (w.diskOf t.1) := fun _ => Or.inl hstart.install
  have hany := run_keeps newMode hw hready argv ((hatomic _ ⟨[], (FileTree.overlay_nil _).symm⟩).weaken
    (fun ev _ => ⟨fun _ _ => ⟨_, rfl⟩, fun h => h.elim, fun h => h.elim, fun h => h.elim, fun h => h.elim⟩) (fun _ h => h) fun _ h => h)
    (hwhole (fun u => ∃ left, u = (w.world.package a.zip).overlay left)) es
  obtain ⟨⟨s, hviews, hI⟩, hends⟩ := hany
  refine ⟨wholeAt_of_views hviews hI, fun hnone => ?_, fun hr => ?_, hviews.outside⟩
  · have hfresh := main_fresh (w := w) argv.1 (show (w.diskOf t.1).staging = none from treeAt_eq_none hnone)
    have hpackage : ∀ ev : Event LibUpdate.Op LibUpdate.Outcome Disk, ExtractsFresh ev.op ev.before →
        ev.op = .extract a.zip → (w.world.package a.zip).overlay (w.world.cleared a.zip (ev.before.staging.getD []))
          = w.world.package a.zip := by
      intro ev hens hop
      rw [hens _ hop]
      exact FileTree.overlay_nil _
    have hexact := (hatomic (fun u => u = w.world.package a.zip) rfl).rely hfresh fun ev _ hens =>
      ⟨fun hop _ => hpackage ev hens hop, fun h => h.elim, fun h => h.elim, fun h => h.elim, fun h => h.elim⟩
    obtain ⟨⟨s, hviews, hI⟩, _⟩ := run_keeps newMode hw hready argv hexact (hwhole _) es
    exact wholeAt_of_views hviews hI
  · obtain ⟨s, hviews, hQ⟩ := hends _ hr
    have hplace := hviews.place
    rcases hQ rfl with hold | ⟨hold, _⟩
    · left
      rw [← hold]
      exact hplace .install
    · right
      rw [← hold]
      exact hplace .backup

/-! ## A sample installation -/

/-- A package with one file. -/
def sampleSetting : Setting :=
  ⟨ascii "/opt/app", none, fun _ => some [⟨true, 0, ascii "app", false, 0, ascii "2"⟩]⟩

/-- The application before its update. -/
def sampleVolume : Volume :=
  ((Volume.empty.put (ascii "/opt") .dir (by decide +kernel)).put (ascii "/opt/app") .dir (by decide +kernel)).put
    (ascii "/opt/app/app") (.file ⟨ascii "1", 0o755⟩) (by decide +kernel)

theorem ready_sampleVolume : sampleSetting.Ready sampleVolume.1 where
  parent := by decide +kernel
  places p := by cases p <;> decide +kernel
  files := by decide +kernel

theorem plain_sampleSetting : sampleSetting.Plain := by
  have hpath : updateValidatePath sampleSetting.installDir true = .ok := by
    decide +kernel
  obtain ⟨hok, habs⟩ := updateValidatePath_eq_ok.mp hpath
  exact ⟨hok, habs rfl, by decide +kernel⟩

/-- The sample command line is about the sample installation. -/
def sampleLine : sampleSetting.CommandLine := ⟨sampleArgv, fun a ha => by
  rw [parseArgs_sampleArgv] at ha
  obtain rfl := Option.some.inj ha
  rfl⟩

/-- A run that is cut off after forty calls, and then one whose calls all fail. -/
theorem history_refined_sample :
    ∃ runs' : List (sampleSetting.CommandLine × List LibUpdate.Outcome),
      runs'.map Prod.fst = [sampleLine, sampleLine]
        ∧ sampleSetting.Views False sampleVolume.1
          (sampleSetting.leaves 420 [(sampleLine, List.replicate 40 fineOutcome), (sampleLine, [])] sampleVolume)
          ((updaterDevice sampleSetting.world).leaves (fun argv => LibUpdate.main argv.1) runs'
            (sampleSetting.diskOf sampleVolume.1)) :=
  history_refined 420 sampleSetting plain_sampleSetting sampleVolume ready_sampleVolume
    [(sampleLine, List.replicate 40 fineOutcome), (sampleLine, [])]

theorem whole_at_every_call_sample :
    sampleSetting.WholeAt (· = sampleSetting.world.package (ascii "/tmp/p.zip"))
      (viewAt sampleVolume.1 (sampleSetting.spot (endingOf .install)))
      ((device 420).run (updaterMain none sampleSetting.archive sampleArgv) (List.replicate 40 fineOutcome)
        sampleVolume).final.1 :=
  (whole_at_every_call 420 sampleSetting plain_sampleSetting sampleVolume ready_sampleVolume sampleLine _
    parseArgs_sampleArgv (by decide +kernel) (by decide +kernel) (by decide +kernel)
    (List.replicate 40 fineOutcome)).2.1 (by decide +kernel)

end Setting

end Sys

end LibUpdate
