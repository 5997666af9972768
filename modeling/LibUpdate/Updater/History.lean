import LibUpdate.Foundation.CrashLogic
import LibUpdate.Updater.Main

/-!
# `Updater.History` — what histories of crashing runs keep

A history is a sequence of runs on one installation, each of which may crash. `Consistent` is what the
runs keep between them: what is installed is complete, what would be put back is complete, and what the
state file lets a run install without extracting it again is a complete package. `StepHonest` names the
steps that break it: those that stop half-way in a directory while the state file vouches for that
directory, and extractions over leftovers.

A second, independent invariant says that a copy of the application remains: while there is no install
directory there is a backup. A run breaks it when it starts without an install directory and does not
resume.

The three trees of `Disk` lie apart. For an install directory that is written with a trailing slash they do
not (`World.nested`: staging and backup are names inside it, and no rename between them works), so what is
said here is then about the model only; `System.Crash` takes it to the file system where there is no slash.
-/

namespace LibUpdate

/-- The state that a run for `zip` resumes from: one that is read and fits the arguments of the run. Without one,
    the run starts afresh. -/
def acceptedState (w : World) (zip : Bytes) (file : Option Bytes) : Option UpdaterState :=
  match updaterStateLoad file with
  | .found st =>
      if updaterStateValidate st w.installDir (w.installDir ++ stagingSuffix) (w.installDir ++ backupSuffix)
          zip = 0 then some st
      else none
  | _ => none

theorem acceptedState_eq_some {w : World} {zip : Bytes} {file : Option Bytes} {st : UpdaterState} :
    acceptedState w zip file = some st ↔ updaterStateLoad file = .found st
      ∧ updaterStateValidate st w.installDir (w.installDir ++ stagingSuffix) (w.installDir ++ backupSuffix)
          zip = 0 := by
  unfold acceptedState
  constructor
  · intro h
    split at h
    · next hload =>
      split at h
      · next hval =>
        cases h
        exact ⟨hload, hval⟩
      · cases h
    · cases h
  · rintro ⟨hload, hval⟩
    rw [hload]
    exact if_pos hval

theorem acceptedState_none (w : World) (zip : Bytes) : acceptedState w zip none = none := rfl

/-- The step stops half-way. -/
def Outcome.Stops (e : Outcome) : Prop := ∃ left, e = .halfway left

section

variable (w : World) (zips : Bytes → Prop) (old : Tree)

/-- The complete tree of one of the packages `zips`: what an update may leave installed, next to the old tree. -/
def IsNew (t : Tree) : Prop := ∃ zip, zips zip ∧ t = w.package zip

/-- A complete application tree: the old one or that of a package. -/
def Complete (t : Tree) : Prop := t = old ∨ IsNew w zips t

/-- Some run would install the staging directory without extracting into it again. -/
def TrustsStaging (s : Disk) : Prop :=
  ∃ zip st, zips zip ∧ acceptedState w zip s.state = some st
    ∧ (st.phase = Phase.extracted.text ∨ s.install = none)

/-- Whatever is in the staging directory is a complete package. A run may install it without extracting anything
    only where this holds. -/
def Staged (s : Disk) : Prop := ∀ t, s.staging = some t → IsNew w zips t

/-- What is kept between runs: what is installed, what would be put back and what would be installed without a new
    extraction are complete trees. -/
structure Consistent (s : Disk) : Prop where
  install : ∀ t, s.install = some t → Complete w zips old t
  backup : s.install = none → ∀ t, s.backup = some t → Complete w zips old t
  staging : TrustsStaging w zips s → Staged w zips s

/-- The steps that keep the state file honest. Each clause names a step that can break it: what it may not do while
    the state file vouches for the directory that it works in. -/
def StepHonest (ev : Event Op Outcome Disk) : Prop :=
  match ev.op with
  | .loadState => stepLoadState ev.outcome ev.before ≠ .overrun
  | .isDir .install => ev.before.install = some [] → ev.outcome = .ok
  | .removeTree .staging => TrustsStaging w zips ev.before → ¬ ev.outcome.Stops
  | .removeTree .backup => ev.before.install = none → ¬ ev.outcome.Stops
  | .extract zip => (TrustsStaging w zips ev.before → ¬ ev.outcome.Stops)
      ∧ (ev.outcome = .ok → ∀ t, ev.before.staging = some t → ∀ n ∈ t, ((w.package zip).get n.1).isSome)
  | _ => True

/-- What must be known before an operation for it to keep `Consistent`. -/
def Allowed (o : Op) (s : Disk) : Prop :=
  match o with
  | .saveState _ _ => Staged w zips s
  | .extract zip => zips zip
  | .move .install .backup => Staged w zips s
  | .move .staging .install => s.install = none ∨ s.install = some [] → Staged w zips s
  | .move .backup .install => s.install ≠ some []
  | .move _ _ => False
  | .removeTree .install => False
  | _ => True

end

variable {w : World} {zips : Bytes → Prop} {old : Tree} {s s' : Disk} {zip app : Bytes}

/-! ## One step -/

theorem not_trustsStaging_of_state_none (h : s.state = none) : ¬ TrustsStaging w zips s := by
  rintro ⟨zip, st, _, hst, _⟩
  rw [h, acceptedState_none] at hst
  cases hst

/-- Only the state file and the presence of an install directory decide what is trusted. -/
theorem TrustsStaging.of_eq {t : Disk} (h : TrustsStaging w zips s) (hstate : t.state = s.state)
    (hinst : s.install = none → t.install = none) : TrustsStaging w zips t := by
  obtain ⟨zip, st, hzip, hst, hwhy⟩ := h
  exact ⟨zip, st, hzip, by rw [hstate]; exact hst, hwhy.imp_right hinst⟩

theorem consistent_removeState (hc : Consistent w zips old s) (e : Outcome) :
    Consistent w zips old (stepRemoveState e s) := by
  cases e with
  | ok => exact ⟨hc.install, hc.backup, fun h => absurd h (not_trustsStaging_of_state_none rfl)⟩
  | fail => exact hc
  | halfway left => exact hc

theorem consistent_removeStaging (hc : Consistent w zips old s) {e : Outcome} {r : UpdateStatus}
    (h : stepRemoveTree .staging e s = (r, s')) (he : TrustsStaging w zips s → ¬ e.Stops) :
    Consistent w zips old s' := by
  rcases stepRemoveTree_cases h with rfl | rfl | ⟨t, left, hleft, _, rfl⟩
  · exact hc
  · refine ⟨hc.install, hc.backup, fun _ t ht => ?_⟩
    cases ht
  · refine ⟨hc.install, hc.backup, fun htrust => ?_⟩
    exact absurd ⟨left, hleft⟩ (he (htrust.of_eq rfl id))

theorem consistent_removeBackup (hc : Consistent w zips old s) {e : Outcome} {r : UpdateStatus}
    (h : stepRemoveTree .backup e s = (r, s')) (he : s.install = none → ¬ e.Stops) :
    Consistent w zips old s' := by
  rcases stepRemoveTree_cases h with rfl | rfl | ⟨t, left, hleft, _, rfl⟩
  · exact hc
  · refine ⟨hc.install, fun _ t ht => ?_, fun htrust => hc.staging (htrust.of_eq rfl id)⟩
    cases ht
  · refine ⟨hc.install, fun hnone => ?_, fun htrust => hc.staging (htrust.of_eq rfl id)⟩
    exact absurd ⟨left, hleft⟩ (he hnone)

/-- An extraction over files of the same package gives the package. -/
theorem overlay_eq_of_covered {top t : Tree} (h : ∀ n ∈ t, (top.get n.1).isSome) : top.overlay t = top := by
  have hnil : (t.filter fun n => (top.get n.1).isNone) = [] := by
    rw [List.filter_eq_nil_iff]
    intro n hn
    obtain ⟨v, hv⟩ := Option.isSome_iff_exists.mp (h n hn)
    simp [hv]
  rw [FileTree.overlay, hnil, List.append_nil]

/-- An honest extraction that succeeds leaves the package. -/
theorem staged_extract {e : Outcome} {r : UpdateStatus} (hzip : zips zip)
    (he : StepHonest w zips ⟨.extract zip, e, s⟩) (h : stepExtract w zip e s = (r, s')) (hr : r = .ok) :
    Staged w zips s' := by
  subst hr
  cases e with
  | ok =>
      rw [← (Prod.mk.inj h).2]
      intro t ht
      refine ⟨zip, hzip, ?_⟩
      rw [← Option.some.inj ht]
      cases hs : s.staging with
      | none => exact FileTree.overlay_nil _
      | some t => exact overlay_eq_of_covered fun n hn => he.2 rfl t hs n (World.mem_of_mem_cleared hn)
  | fail => cases h
  | halfway left => cases h

theorem consistent_extract (hc : Consistent w zips old s) {e : Outcome} (hzip : zips zip)
    (he : StepHonest w zips ⟨.extract zip, e, s⟩) : Consistent w zips old (stepExtract w zip e s).2 := by
  cases e with
  | ok => exact ⟨hc.install, hc.backup, fun _ => staged_extract hzip he rfl rfl⟩
  | fail => exact hc
  | halfway left =>
      refine ⟨hc.install, hc.backup, fun htrust => ?_⟩
      exact absurd ⟨left, rfl⟩ (he.1 (htrust.of_eq rfl id))

theorem consistent_saveState (hc : Consistent w zips old s) {phase : Phase} {e : Outcome} {r : UpdateStatus}
    (h : stepSaveState w phase zip e s = (r, s')) (hstaged : Staged w zips s) : Consistent w zips old s' := by
  obtain ⟨hinst, hstg, hbak⟩ := stepSaveState_frame h
  refine ⟨?_, ?_, ?_⟩
  · rw [hinst]; exact hc.install
  · rw [hinst, hbak]; exact hc.backup
  · intro _ t ht
    rw [hstg] at ht
    exact hstaged t ht

theorem consistent_move (hc : Consistent w zips old s) {src dst : Place} {e : Outcome} {r : UpdateStatus}
    (h : stepMove w src dst e s = (r, s')) (hallow : Allowed w zips (.move src dst) s) :
    Consistent w zips old s' := by
  rcases stepMove_cases h with ⟨_, rfl⟩ | ⟨_, t, hsrc, hdst, rfl⟩
  · exact hc
  · match src, dst, hallow with
    | .install, .backup, hstaged =>
        -- the install directory goes to the backup with all it holds
        refine ⟨fun u hu => ?_, fun _ u hu => ?_, fun _ => hstaged⟩
        · cases hu
        · rw [← Option.some.inj hu]
          exact hc.install t hsrc
    | .staging, .install, hstaged =>
        refine ⟨fun u hu => ?_, fun hnone => ?_, fun _ u hu => ?_⟩
        · rw [← Option.some.inj hu]
          exact Or.inr (hstaged hdst t hsrc)
        · cases hnone
        · cases hu
    | .backup, .install, hempty =>
        -- the move back: by `hempty` there was no install directory at all
        have hnone : s.install = none := hdst.resolve_right hempty
        refine ⟨fun u hu => ?_, fun h => ?_, fun htrust => hc.staging (htrust.of_eq rfl fun _ => hnone)⟩
        · rw [← Option.some.inj hu]
          exact hc.backup hnone t hsrc
        · cases h

/-- **The step lemma.** An allowed operation keeps the disk consistent. -/
theorem consistent_step (hc : Consistent w zips old s) {o : Op} {e : Outcome} (ho : Allowed w zips o s)
    (he : StepHonest w zips ⟨o, e, s⟩) : Consistent w zips old ((updaterDevice w).step o e s).2 := by
  cases o with
  | loadState => exact hc
  | removeState => exact consistent_removeState hc e
  | isDir p => exact hc
  | waitParent pid => exact hc
  | removeTree p =>
      cases p with
      | install => exact ho.elim
      | staging => exact consistent_removeStaging hc rfl he
      | backup => exact consistent_removeBackup hc rfl he
  | extract zip => exact consistent_extract hc ho he
  | saveState phase zip => exact consistent_saveState hc rfl ho
  | move src dst => exact consistent_move hc rfl ho
  | relaunch app => exact hc

/-! ## A run keeps the disk consistent -/

/-- The contract of the first invariant: what is moved over the install directory is a package. -/
def honestContract (w : World) (zips : Bytes → Prop) (old : Tree) : Contract Op Outcome Disk where
  assumes := StepHonest w zips
  ensures ev := Consistent w zips old ev.before
    ∧ (ev.op = .move .staging .install →
        (stepMove w .staging .install ev.outcome ev.before).1 = .ok → Staged w zips ev.before)
  invariant := Consistent w zips old

/-- Whatever a run returns, and wherever. -/
abbrev Any : Exit → Disk → Prop := fun _ _ => True

/-- The run keeps the first contract. Each part of `main` has a lemma of this form. -/
abbrev Honest (w : World) (zips : Bytes → Prop) (old : Tree) (p : UpdaterProg Exit) (s : Disk) : Prop :=
  Safe (updaterDevice w) (honestContract w zips old) Any p s

/-- The rule for one operation. -/
theorem honest_perform {o : Op} {f : Res o → UpdaterProg Exit} (hc : Consistent w zips old s)
    (ho : Allowed w zips o s)
    (hf : ∀ e r t, (updaterDevice w).step o e s = (r, t) → StepHonest w zips ⟨o, e, s⟩ →
      Consistent w zips old t → Honest w zips old (f r) t) :
    Honest w zips old (Prog.perform o >>= f) s := by
  intro e he
  have hc' := consistent_step hc ho he
  refine ⟨⟨hc, ?_⟩, hc', hf e _ _ rfl he hc'⟩
  intro hop hok
  have hop' : o = .move .staging .install := hop
  subst hop'
  rcases stepMove_cases (Eq.refl (stepMove w .staging .install e s)) with ⟨hr, _⟩ | ⟨_, t, _, hdst, _⟩
  · exact absurd (hok.symm.trans hr) (by decide)
  · exact ho hdst

theorem relaunch_honest (hc : Consistent w zips old s) : Honest w zips old (relaunch app) s := by
  refine honest_perform hc trivial fun e r t _ _ hc => ?_
  split <;> trivial

theorem finishUpdate_honest (hc : Consistent w zips old s) : Honest w zips old (finishUpdate app) s := by
  refine honest_perform hc trivial fun e r t _ _ hc => ?_
  refine honest_perform hc trivial fun e r t _ _ hc => ?_
  exact relaunch_honest hc

theorem abandonUpdate_honest (hc : Consistent w zips old s) : Honest w zips old abandonUpdate s := by
  refine honest_perform hc trivial fun e r t _ _ hc => ?_
  refine honest_perform hc trivial fun e r t _ _ hc => ?_
  trivial

theorem restoreBackup_honest (hc : Consistent w zips old s) (hempty : s.install ≠ some []) :
    Honest w zips old restoreBackup s := by
  refine honest_perform hc hempty fun e r t _ _ hc => ?_
  split
  · trivial
  · exact abandonUpdate_honest hc

theorem resumeRollback_honest (hc : Consistent w zips old s) (hempty : s.install ≠ some []) :
    Honest w zips old (resumeRollback app) s := by
  refine honest_perform hc hempty fun e r t _ _ hc => ?_
  split
  · trivial
  · refine honest_perform hc trivial fun e r t _ _ hc => ?_
    refine honest_perform hc trivial fun e r t _ _ hc => ?_
    exact relaunch_honest hc

theorem resumePostBackup_honest (hc : Consistent w zips old s) (hempty : s.install ≠ some [])
    (hstaged : s.install = none → Staged w zips s) : Honest w zips old (resumePostBackup zip app) s := by
  refine honest_perform hc (fun h => hstaged (h.resolve_right hempty)) fun e r t hmove _ hc => ?_
  rcases stepMove_cases hmove with ⟨rfl, rfl⟩ | ⟨rfl, u, _, _, rfl⟩
  · rw [ite_error]
    exact restoreBackup_honest hc hempty
  · rw [ite_ok]
    -- the staging directory is gone, so nothing the save says can be wrong about it
    have hstaged : Staged w zips ((s.set .staging none).set .install (some u)) := by
      intro v hv
      cases hv
    refine honest_perform hc hstaged fun e r t _ _ hc => ?_
    exact finishUpdate_honest hc

theorem resumePostExtract_honest (hc : Consistent w zips old s) (hstaged : Staged w zips s) :
    Honest w zips old (resumePostExtract zip app) s := by
  refine honest_perform hc hstaged fun e r t hsave _ hc => ?_
  replace hstaged : Staged w zips t := by
    unfold Staged
    rw [(stepSaveState_frame hsave).2.1]
    exact hstaged
  split
  · exact abandonUpdate_honest hc
  refine honest_perform hc trivial fun e r t hremove _ hc => ?_
  replace hstaged : Staged w zips t := by
    have hstg := (stepRemoveTree_frame hremove).1 .staging (by decide)
    unfold Staged
    rw [← Disk.get_staging, hstg]
    exact hstaged
  refine honest_perform hc hstaged fun e r t hmove _ hc => ?_
  rcases stepMove_cases hmove with ⟨rfl, rfl⟩ | ⟨rfl, u, _, _, rfl⟩
  · rw [ite_error]
    exact abandonUpdate_honest hc
  rw [ite_ok]
  -- from here on there is no install directory until the staging directory takes its place
  refine honest_perform hc hstaged fun e r t hsave _ hc => ?_
  obtain ⟨hinst, hstg, _⟩ := stepSaveState_frame hsave
  have hnone : t.install = none := hinst
  replace hstaged : Staged w zips t := by
    unfold Staged
    rw [hstg]
    exact hstaged
  have hempty : t.install ≠ some [] := by
    rw [hnone]
    simp
  split
  · exact restoreBackup_honest hc hempty
  · exact resumePostBackup_honest hc hempty fun _ => hstaged

theorem resumeFull_honest (hc : Consistent w zips old s) (hzip : zips zip) :
    Honest w zips old (resumeFull zip app) s := by
  refine honest_perform hc trivial fun e r t _ _ hc => ?_
  refine honest_perform hc hzip fun e r t hextract he hc => ?_
  split
  · exact abandonUpdate_honest hc
  · next hok => exact resumePostExtract_honest hc (staged_extract hzip he hextract (Decidable.not_not.mp hok))

/-- What must be known of the disk at each resume point. -/
def ResumeOk (w : World) (zips : Bytes → Prop) (s : Disk) : Resume → Prop
  | .rollback => s.install ≠ some []
  | .postInstall => True
  | .postBackup => s.install ≠ some [] ∧ (s.install = none → Staged w zips s)
  | .postExtract => Staged w zips s
  | .full => True

theorem resumeAt_honest (hc : Consistent w zips old s) (hzip : zips zip) {resume : Resume}
    (h : ResumeOk w zips s resume) : Honest w zips old (resumeAt zip app resume) s := by
  cases resume with
  | rollback => exact resumeRollback_honest hc h
  | postInstall => exact finishUpdate_honest hc
  | postBackup => exact resumePostBackup_honest hc h.1 h.2
  | postExtract => exact resumePostExtract_honest hc h
  | full => exact resumeFull_honest hc hzip

theorem waitAndResume_honest (hc : Consistent w zips old s) {a : Args} (hzip : zips a.zip) {resume : Resume}
    (h : ResumeOk w zips s resume) : Honest w zips old (waitAndResume a resume) s := by
  refine honest_perform hc trivial fun e r t hwait _ hc => ?_
  obtain rfl : s = t := (Prod.mk.inj hwait).2
  split
  · trivial
  · cases joinInstallApp a.target a.app with
    | none => trivial
    | some app => exact resumeAt_honest hc hzip h

/-- A state that loads and validates is accepted. -/
theorem acceptedState_of_found {e : Outcome} {st : UpdaterState} (hload : stepLoadState e s = .found st)
    (hval : updaterStateValidate st w.installDir (w.installDir ++ stagingSuffix)
      (w.installDir ++ backupSuffix) zip = 0) : acceptedState w zip s.state = some st := by
  rcases stepLoadState_cases hload with h | h | hread
  · cases h
  · cases h
  · exact acceptedState_eq_some.mpr ⟨hread, hval⟩

/-- The resume point chosen from an accepted state fits the disk. -/
theorem resumeOk_determine (hc : Consistent w zips old s) {st : UpdaterState} (hzip : zips zip)
    (hst : acceptedState w zip s.state = some st) {e₁ e₂ e₃ : Outcome}
    (he : StepHonest w zips ⟨.isDir .install, e₁, s⟩) :
    ResumeOk w zips s (updaterDetermineResume (stepIsDir .install e₁ s) (stepIsDir .staging e₂ s)
      (stepIsDir .backup e₃ s) st) := by
  have hempty : stepIsDir .install e₁ s = false → s.install ≠ some [] := by
    intro hseen hsome
    have hok : e₁ = .ok := he hsome
    subst hok
    simp [stepIsDir, hsome] at hseen
  have htrust : st.phase = Phase.extracted.text ∨ s.install = none → Staged w zips s := fun hwhy =>
    hc.staging ⟨zip, st, hzip, hst, hwhy⟩
  -- what each answer of `updater_determine_resume` tells of the directories it saw
  have hspec := updaterDetermineResume_spec (stepIsDir .install e₁ s) (stepIsDir .staging e₂ s)
    (stepIsDir .backup e₃ s) st
  generalize updaterDetermineResume (stepIsDir .install e₁ s) (stepIsDir .staging e₂ s)
    (stepIsDir .backup e₃ s) st = resume at hspec
  cases resume with
  | rollback => exact hempty hspec.1
  | postInstall => trivial
  | postBackup => exact ⟨hempty hspec.1, fun hnone => htrust (Or.inr hnone)⟩
  | postExtract => exact htrust (Or.inl hspec.2.2)
  | full => trivial

theorem loadAndResume_honest (hc : Consistent w zips old s) {a : Args} (htarget : a.target = w.installDir)
    (hzip : zips a.zip) : Honest w zips old (loadAndResume a) s := by
  refine honest_perform hc trivial fun e r t hload _ hc => ?_
  obtain rfl : s = t := (Prod.mk.inj hload).2
  have hr : stepLoadState e s = r := (Prod.mk.inj hload).1
  cases r with
  | overrun => trivial
  | missing => exact waitAndResume_honest hc hzip trivial
  | error =>
      refine honest_perform hc trivial fun e r t _ _ hc => ?_
      exact waitAndResume_honest hc hzip trivial
  | found st =>
      dsimp only
      split
      · refine honest_perform hc trivial fun e r t _ _ hc => ?_
        exact waitAndResume_honest hc hzip trivial
      · next hval =>
        rw [htarget] at hval
        have hst := acceptedState_of_found hr (Decidable.not_not.mp hval)
        refine honest_perform hc trivial fun e₁ inst t₁ h₁ he hc => ?_
        obtain ⟨rfl, rfl⟩ := Prod.mk.inj h₁
        refine honest_perform hc trivial fun e₂ stg t₂ h₂ _ hc => ?_
        obtain ⟨rfl, rfl⟩ := Prod.mk.inj h₂
        refine honest_perform hc trivial fun e₃ bak t₃ h₃ _ hc => ?_
        obtain ⟨rfl, rfl⟩ := Prod.mk.inj h₃
        exact waitAndResume_honest hc hzip (resumeOk_determine hc hzip hst he)

theorem main_honest (hc : Consistent w zips old s) {argv : List Bytes}
    (hargs : ∀ a, parseArgs argv = some a → a.target = w.installDir ∧ zips a.zip) :
    Honest w zips old (main argv) s := by
  unfold main
  cases hp : parseArgs argv with
  | none => trivial
  | some a =>
      dsimp only
      unfold updaterMain
      split
      · split
        · trivial
        · exact loadAndResume_honest hc (hargs a hp).1 (hargs a hp).2
      · trivial

/-! ## Histories with the same arguments -/

/-- **What is installed is never partial.** Start with the old tree installed and no state file, and run
    the updater any number of times with the same arguments, each run failing and crashing anywhere. If
    every step is honest, the staging directory is the complete package whenever it is moved onto the
    install directory, and the install directory is at every moment absent, the old tree or the package. -/
theorem history_install_whole (w : World) (argv : List Bytes) (a : Args) (old : Tree) (s : Disk)
    (runs : List (List Outcome)) (hargs : parseArgs argv = some a) (htarget : a.target = w.installDir)
    (hold : s.install = some old) (hstate : s.state = none)
    (hhonest : ∀ x ∈ (updaterDevice w).history main (runs.map (argv, ·)) s, StepHonest w (· = a.zip) x.2) :
    ∀ x ∈ (updaterDevice w).history main (runs.map (argv, ·)) s,
      (x.2.op = .move .staging .install →
        (stepMove w .staging .install x.2.outcome x.2.before).1 = .ok →
        x.2.before.staging = some (w.package a.zip))
      ∧ (((updaterDevice w).after x.2).install = none ∨ ((updaterDevice w).after x.2).install = some old
        ∨ ((updaterDevice w).after x.2).install = some (w.package a.zip)) := by
  -- nothing is trusted without a state file, so the first state is consistent
  have hstart : Consistent w (· = a.zip) old s := by
    refine ⟨fun t ht => ?_, fun hnone => ?_, fun h => absurd h (not_trustsStaging_of_state_none hstate)⟩
    · exact Or.inl (Option.some.inj (ht.symm.trans hold))
    · rw [hold] at hnone
      cases hnone
  have hsound := history_sound (updaterDevice w) (fun _ => honestContract w (· = a.zip) old)
    (Consistent w (· = a.zip) old) main (runs.map (argv, ·)) (fun _ => rfl) (fun run hrun t ht => by
      obtain ⟨es, _, rfl⟩ := List.mem_map.mp hrun
      refine main_honest ht fun b hb => ?_
      obtain rfl : a = b := Option.some.inj (hargs.symm.trans hb)
      exact ⟨htarget, rfl⟩) hstart hhonest
  intro x hx
  obtain ⟨⟨_, hmoved⟩, hafter⟩ := hsound x hx
  refine ⟨fun hop hok => ?_, ?_⟩
  · rcases stepMove_cases (Eq.refl (stepMove w .staging .install x.2.outcome x.2.before))
      with ⟨hr, _⟩ | ⟨_, t, ht, _⟩
    · exact absurd (hok.symm.trans hr) (by decide)
    · obtain ⟨zip, rfl, hnew⟩ := hmoved hop hok t ht
      rw [← hnew]
      exact ht
  · cases hinst : ((updaterDevice w).after x.2).install with
    | none => exact Or.inl rfl
    | some t =>
        right
        rcases hafter.install t hinst with rfl | ⟨zip, rfl, rfl⟩
        · exact Or.inl rfl
        · exact Or.inr rfl

/-- A step that nothing disturbs is honest: the state file must fit the read block, and an extraction
    must find no staging directory. -/
theorem stepHonest_of_ok {ev : Event Op Outcome Disk} (hok : ev.outcome = .ok)
    (hload : stepLoadState ev.outcome ev.before ≠ .overrun)
    (hextract : (∃ zip, ev.op = .extract zip) → ev.before.staging = none) : StepHonest w zips ev := by
  obtain ⟨o, e, s⟩ := ev
  dsimp only at hok hload hextract
  subst hok
  have hstops : ¬ Outcome.Stops .ok := by
    rintro ⟨left, h⟩
    cases h
  cases o with
  | loadState => exact hload
  | isDir p =>
      cases p with
      | install => exact fun _ => rfl
      | staging => trivial
      | backup => trivial
  | removeTree p => cases p <;> first | trivial | exact fun _ => hstops
  | extract zip =>
      refine ⟨fun _ => hstops, fun _ t ht => ?_⟩
      have hnone : s.staging = none := hextract ⟨zip, rfl⟩
      rw [hnone] at ht
      cases ht
  | removeState => trivial
  | waitParent pid => trivial
  | saveState phase zip => trivial
  | move src dst => trivial
  | relaunch app => trivial

/-! ## One installation -/

/-- An installation in `/opt/app` and a package with two files. -/
def sampleWorld : World where
  installDir := ascii "/opt/app"
  package _ := [([ascii "app"], .file (ascii "2")), ([ascii "data"], .file (ascii "2"))]
  temps _ := [[ascii "app.extracting"], [ascii "data.extracting"]]

def sampleArgv : List Bytes :=
  [ascii "updater", ascii "--install", ascii "/tmp/p.zip", ascii "--target", ascii "/opt/app",
    ascii "--pid", ascii "7", ascii "--app", ascii "app"]

def sampleDisk : Disk where
  install := some [([ascii "app"], .file (ascii "1"))]
  staging := none
  backup := none
  state := none
  part := none

/-- Two runs: the first crashes when everything is installed, the second finds the rest to clean up. -/
theorem history_install_whole_sample :
    ∃ x ∈ (updaterDevice sampleWorld).history main
        ([List.replicate 9 .ok, List.replicate 20 .ok].map (sampleArgv, ·)) sampleDisk,
      x.2.op = .move .staging .install
        ∧ x.2.before.staging = some (sampleWorld.package (ascii "/tmp/p.zip"))
        ∧ (((updaterDevice sampleWorld).after x.2).install = none
          ∨ ((updaterDevice sampleWorld).after x.2).install = some [([ascii "app"], .file (ascii "1"))]
          ∨ ((updaterDevice sampleWorld).after x.2).install
              = some (sampleWorld.package (ascii "/tmp/p.zip"))) := by
  have h : ∀ x ∈ (updaterDevice sampleWorld).history main
      ([List.replicate 9 .ok, List.replicate 20 .ok].map (sampleArgv, ·)) sampleDisk,
      x.2.outcome = .ok ∧ stepLoadState x.2.outcome x.2.before ≠ .overrun
        ∧ ((match x.2.op with | .extract _ => true | _ => false) = true → x.2.before.staging = none) := by
    decide +kernel
  have hmove : ∃ x ∈ (updaterDevice sampleWorld).history main
      ([List.replicate 9 .ok, List.replicate 20 .ok].map (sampleArgv, ·)) sampleDisk,
      x.2.op = .move .staging .install
        ∧ (stepMove sampleWorld .staging .install x.2.outcome x.2.before).1 = .ok := by
    decide +kernel
  obtain ⟨x, hx, hop, hok⟩ := hmove
  have hwhole := history_install_whole sampleWorld sampleArgv
    ⟨ascii "/tmp/p.zip", ascii "/opt/app", 7, ascii "app"⟩ [([ascii "app"], .file (ascii "1"))] sampleDisk
    [List.replicate 9 .ok, List.replicate 20 .ok] (by decide +kernel) rfl rfl rfl (fun y hy => by
      obtain ⟨hok, hload, hextract⟩ := h y hy
      refine stepHonest_of_ok hok hload ?_
      rintro ⟨zip, hop⟩
      exact hextract (by rw [hop])) x hx
  exact ⟨x, hx, hop, hwhole.1 hop hok, hwhole.2⟩

/-- What is left of the package when its removal stops half-way. -/
def partialTree : Tree := [([ascii "app"], .file (ascii "2"))]

/-- The first run cannot move the install directory away and stops while it removes the staging
    directory. -/
def interruptedRuns : List (List Outcome) :=
  [[.ok, .ok, .ok, .ok, .ok, .ok, .fail, .halfway partialTree], List.replicate 20 .ok]

/-- The state file still says `"extracted"`, and the second run installs what is left. -/
theorem history_installs_partial :
    (∃ x ∈ (updaterDevice sampleWorld).history main (interruptedRuns.map (sampleArgv, ·)) sampleDisk,
      x.2.op = .move .staging .install ∧ x.2.before.staging = some partialTree
        ∧ ((updaterDevice sampleWorld).after x.2).install = some partialTree)
      ∧ partialTree ≠ sampleWorld.package (ascii "/tmp/p.zip") ∧ some partialTree ≠ sampleDisk.install := by
  refine ⟨?_, by decide +kernel, by decide +kernel⟩
  decide +kernel

end LibUpdate
