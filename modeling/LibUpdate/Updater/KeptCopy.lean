import LibUpdate.Updater.History

/-!
# `Updater.KeptCopy` — a complete copy of the application remains

While there is no install directory, the application is in the backup directory. `StepResumes` names
what a run that starts so must manage: to read the state file, to find it made for its own package, and
to see the backup. A run that does not falls back to a full update, whose first removal takes the last
copy. Together with `Updater.History` this gives that removals of the backup happen only beside a
complete install directory, over histories with changing packages and unreadable state files.

As in `Updater.History` the trees lie apart, which they do where the install directory is written without a
trailing slash.
-/

namespace LibUpdate

/-- The steps that let a run without an install directory resume. -/
def StepResumes (w : World) (zip : Bytes) (ev : Event Op Outcome Disk) : Prop :=
  match ev.op with
  | .loadState => ev.before.install = none → ev.outcome = .ok ∧ (acceptedState w zip ev.before.state).isSome
  | .isDir .backup => ev.before.install = none → ev.outcome = .ok
  | _ => True

/-- The application is somewhere: there is an install directory, or else a backup. It is kept between runs. -/
def HasCopy (s : Disk) : Prop := s.install = none → s.backup ≠ none

/-- What must be known before an operation for it to keep `HasCopy`. -/
def Spared (o : Op) (s : Disk) : Prop :=
  match o with
  | .removeTree .install => False
  | .removeTree .backup => s.install ≠ none
  | .move .install .backup => True
  | .move _ .install => True
  | .move _ _ => False
  | _ => True

variable {w : World} {s s' : Disk} {zip app : Bytes}

/-! ## One step -/

theorem HasCopy.of_eq {t : Disk} (h : HasCopy s) (hinst : t.install = s.install)
    (hbak : t.backup = s.backup) : HasCopy t := by
  unfold HasCopy
  rw [hinst, hbak]
  exact h

theorem hasCopy_of_install (h : s.install ≠ none) : HasCopy s := fun hnone => absurd hnone h

theorem hasCopy_removeTree (hc : HasCopy s) {p : Place} {e : Outcome} {r : UpdateStatus}
    (h : stepRemoveTree p e s = (r, s')) (hspared : Spared (.removeTree p) s) : HasCopy s' := by
  obtain ⟨hother, _⟩ := stepRemoveTree_frame h
  cases p with
  | install => exact hspared.elim
  | staging => exact hc.of_eq (hother .install (by decide)) (hother .backup (by decide))
  | backup =>
      have hinst : s'.install = s.install := hother .install (by decide)
      refine hasCopy_of_install ?_
      rw [hinst]
      exact hspared

theorem hasCopy_move (hc : HasCopy s) {src dst : Place} {e : Outcome} {r : UpdateStatus}
    (h : stepMove w src dst e s = (r, s')) (hspared : Spared (.move src dst) s) : HasCopy s' := by
  rcases stepMove_cases h with ⟨_, rfl⟩ | ⟨_, t, _, _, rfl⟩
  · exact hc
  · cases dst with
    | install => exact hasCopy_of_install (by simp)
    | backup =>
        intro _
        simp
    | staging => cases src <;> exact hspared.elim

/-- **The step lemma.** A spared operation leaves a copy. -/
theorem hasCopy_step (hc : HasCopy s) {o : Op} {e : Outcome} (ho : Spared o s) :
    HasCopy ((updaterDevice w).step o e s).2 := by
  cases o with
  | loadState => exact hc
  | removeState => cases e <;> exact hc
  | isDir p => exact hc
  | waitParent pid => exact hc
  | removeTree p => exact hasCopy_removeTree hc rfl ho
  | extract zip => cases e <;> exact hc
  | saveState phase zip =>
      obtain ⟨hinst, _, hbak⟩ := stepSaveState_frame (Eq.refl (stepSaveState w phase zip e s))
      exact hc.of_eq hinst hbak
  | move src dst => exact hasCopy_move hc rfl ho
  | relaunch app => exact hc

/-! ## A run leaves a copy -/

/-- The contract of the second invariant: the backup is removed only beside an install directory. -/
def copyContract (w : World) (argv : List Bytes) : Contract Op Outcome Disk where
  assumes ev := ∀ a, parseArgs argv = some a → StepResumes w a.zip ev
  ensures ev := ev.op = .removeTree .backup → ev.before.install ≠ none
  invariant := HasCopy

variable {argv : List Bytes}

/-- The run keeps the second contract. Each part of `main` has a lemma of this form. -/
abbrev KeepsCopy (w : World) (argv : List Bytes) (p : UpdaterProg Exit) (s : Disk) : Prop :=
  Safe (updaterDevice w) (copyContract w argv) Any p s

/-- The rule for one operation. -/
theorem copy_perform {o : Op} {f : Res o → UpdaterProg Exit} (hc : HasCopy s) (ho : Spared o s)
    (hf : ∀ e r t, (updaterDevice w).step o e s = (r, t) → (copyContract w argv).assumes ⟨o, e, s⟩ →
      HasCopy t → KeepsCopy w argv (f r) t) :
    KeepsCopy w argv (Prog.perform o >>= f) s := by
  intro e he
  have hc' := hasCopy_step (w := w) (e := e) hc ho
  refine ⟨?_, hc', hf e _ _ rfl he hc'⟩
  intro hop
  have hop' : o = .removeTree .backup := hop
  subst hop'
  exact ho

theorem relaunch_copy (hc : HasCopy s) : KeepsCopy w argv (relaunch app) s := by
  refine copy_perform hc trivial fun e r t _ _ hc => ?_
  split <;> trivial

theorem finishUpdate_copy (hinst : s.install ≠ none) : KeepsCopy w argv (finishUpdate app) s := by
  refine copy_perform (hasCopy_of_install hinst) hinst fun e r t _ _ hc => ?_
  refine copy_perform hc trivial fun e r t _ _ hc => ?_
  exact relaunch_copy hc

theorem abandonUpdate_copy (hc : HasCopy s) : KeepsCopy w argv abandonUpdate s := by
  refine copy_perform hc trivial fun e r t _ _ hc => ?_
  refine copy_perform hc trivial fun e r t _ _ hc => ?_
  trivial

theorem restoreBackup_copy (hc : HasCopy s) : KeepsCopy w argv restoreBackup s := by
  refine copy_perform hc trivial fun e r t _ _ hc => ?_
  split
  · trivial
  · exact abandonUpdate_copy hc

theorem resumeRollback_copy (hc : HasCopy s) : KeepsCopy w argv (resumeRollback app) s := by
  refine copy_perform hc trivial fun e r t _ _ hc => ?_
  split
  · trivial
  · refine copy_perform hc trivial fun e r t _ _ hc => ?_
    refine copy_perform hc trivial fun e r t _ _ hc => ?_
    exact relaunch_copy hc

theorem resumePostBackup_copy (hc : HasCopy s) : KeepsCopy w argv (resumePostBackup zip app) s := by
  refine copy_perform hc trivial fun e r t hmove _ hc => ?_
  rcases stepMove_cases hmove with ⟨rfl, rfl⟩ | ⟨rfl, u, _, _, rfl⟩
  · rw [ite_error]
    exact restoreBackup_copy hc
  · rw [ite_ok]
    refine copy_perform hc trivial fun e r t hsave _ hc => ?_
    have hinst : t.install = some u := (stepSaveState_frame hsave).1
    exact finishUpdate_copy (by rw [hinst]; simp)

theorem resumePostExtract_copy (hinst : s.install ≠ none) :
    KeepsCopy w argv (resumePostExtract zip app) s := by
  refine copy_perform (hasCopy_of_install hinst) trivial fun e r t hsave _ hc => ?_
  replace hinst : t.install ≠ none := by
    rw [(stepSaveState_frame hsave).1]
    exact hinst
  split
  · exact abandonUpdate_copy hc
  refine copy_perform hc hinst fun e r t _ _ hc => ?_
  refine copy_perform hc trivial fun e r t _ _ hc => ?_
  split
  · exact abandonUpdate_copy hc
  refine copy_perform hc trivial fun e r t _ _ hc => ?_
  split
  · exact restoreBackup_copy hc
  · exact resumePostBackup_copy hc

theorem resumeFull_copy (hinst : s.install ≠ none) : KeepsCopy w argv (resumeFull zip app) s := by
  refine copy_perform (hasCopy_of_install hinst) trivial fun e r t hremove _ hc => ?_
  replace hinst : t.install ≠ none := by
    rw [← Disk.get_install, (stepRemoveTree_frame hremove).1 .install (by decide)]
    exact hinst
  refine copy_perform hc trivial fun e r t hextract _ hc => ?_
  replace hinst : t.install ≠ none := by
    have : t = (stepExtract w zip e _).2 := (Prod.mk.inj hextract).2.symm
    rw [this]
    cases e <;> exact hinst
  split
  · exact abandonUpdate_copy hc
  · exact resumePostExtract_copy hinst

theorem resumeAt_copy (hc : HasCopy s) {resume : Resume}
    (h : s.install = none → resume = .rollback ∨ resume = .postBackup) :
    KeepsCopy w argv (resumeAt zip app resume) s := by
  have hinst : resume ≠ .rollback → resume ≠ .postBackup → s.install ≠ none := fun h1 h2 hnone =>
    (h hnone).elim h1 h2
  cases resume with
  | rollback => exact resumeRollback_copy hc
  | postBackup => exact resumePostBackup_copy hc
  | postInstall => exact finishUpdate_copy (hinst (by decide) (by decide))
  | postExtract => exact resumePostExtract_copy (hinst (by decide) (by decide))
  | full => exact resumeFull_copy (hinst (by decide) (by decide))

theorem waitAndResume_copy (hc : HasCopy s) {a : Args} {resume : Resume}
    (h : s.install = none → resume = .rollback ∨ resume = .postBackup) :
    KeepsCopy w argv (waitAndResume a resume) s := by
  refine copy_perform hc trivial fun e r t hwait _ hc => ?_
  obtain rfl : s = t := (Prod.mk.inj hwait).2
  split
  · trivial
  · cases joinInstallApp a.target a.app with
    | none => trivial
    | some app => exact resumeAt_copy hc h

/-- A run that discards its state had an install directory. -/
theorem waitAndResume_full_copy (hinst : s.install ≠ none) {a : Args} :
    KeepsCopy w argv (waitAndResume a .full) s :=
  waitAndResume_copy (hasCopy_of_install hinst) fun hnone => absurd hnone hinst

/-- Without an install directory but with a backup that is seen, the run restores or goes on. -/
theorem determine_of_no_install {stg : Bool} {st : UpdaterState} :
    updaterDetermineResume false stg true st = .rollback
      ∨ updaterDetermineResume false stg true st = .postBackup := by
  cases stg
  · exact Or.inl rfl
  · exact Or.inr rfl

theorem loadAndResume_copy (hc : HasCopy s) {a : Args} (hargs : parseArgs argv = some a)
    (htarget : a.target = w.installDir) : KeepsCopy w argv (loadAndResume a) s := by
  refine copy_perform hc trivial fun e r t hload he hc => ?_
  obtain rfl : s = t := (Prod.mk.inj hload).2
  have hr : stepLoadState e s = r := (Prod.mk.inj hload).1
  -- without an install directory the load gives a state made for this run
  have hfound : s.install = none → ∃ st, r = .found st ∧ acceptedState w a.zip s.state = some st := by
    intro hnone
    obtain ⟨rfl, hacc⟩ := he a hargs hnone
    obtain ⟨st, hst⟩ := Option.isSome_iff_exists.mp hacc
    refine ⟨st, ?_, hst⟩
    rw [← hr, stepLoadState_ok]
    exact (acceptedState_eq_some.mp hst).1
  have hinst : (∀ st, r ≠ .found st) → s.install ≠ none := fun h hnone => by
    obtain ⟨st, hst, _⟩ := hfound hnone
    exact h st hst
  cases r with
  | overrun => trivial
  | missing => exact waitAndResume_full_copy (hinst fun _ => by simp)
  | error =>
      refine copy_perform hc trivial fun e r t hremove _ hc => ?_
      apply waitAndResume_full_copy
      rw [(stepRemoveState_frame hremove).1]
      exact hinst fun _ => by simp
  | found st =>
      dsimp only
      split
      · next hval =>
        refine copy_perform hc trivial fun e r t hremove _ hc => ?_
        apply waitAndResume_full_copy
        rw [(stepRemoveState_frame hremove).1]
        intro hnone
        obtain ⟨st', hst', hacc⟩ := hfound hnone
        cases hst'
        rw [htarget] at hval
        exact hval (acceptedState_eq_some.mp hacc).2
      · refine copy_perform hc trivial fun e₁ inst t₁ h₁ _ hc => ?_
        obtain ⟨rfl, rfl⟩ := Prod.mk.inj h₁
        refine copy_perform hc trivial fun e₂ stg t₂ h₂ _ hc => ?_
        obtain ⟨rfl, rfl⟩ := Prod.mk.inj h₂
        refine copy_perform hc trivial fun e₃ bak t₃ h₃ he₃ hc => ?_
        obtain ⟨rfl, rfl⟩ := Prod.mk.inj h₃
        refine waitAndResume_copy hc fun hnone => ?_
        have hinst : stepIsDir .install e₁ s = false := by
          cases e₁ <;> simp [stepIsDir, hnone]
        have hbak : stepIsDir .backup e₃ s = true := by
          obtain rfl : e₃ = .ok := he₃ a hargs hnone
          simpa [stepIsDir, Option.isSome_iff_ne_none] using hc hnone
        rw [hinst, hbak]
        exact determine_of_no_install

theorem main_copy (hc : HasCopy s) (hargs : ∀ a, parseArgs argv = some a → a.target = w.installDir) :
    KeepsCopy w argv (main argv) s := by
  unfold main
  cases hp : parseArgs argv with
  | none => trivial
  | some a =>
      dsimp only
      unfold updaterMain
      split
      · split
        · trivial
        · exact loadAndResume_copy hc hp (hargs a hp)
      · trivial

/-! ## Histories with changing packages -/

/-- The packages that the runs of a history are given. -/
def packagesOf (runs : List (List Bytes × List Outcome)) (zip : Bytes) : Prop :=
  ∃ run ∈ runs, ∃ a, parseArgs run.1 = some a ∧ a.zip = zip

/-- **The backup is removed only beside a complete install directory.** Start with a complete tree
    installed, and run the updater any number of times on that installation, with any packages, each run
    failing and crashing anywhere. If every step is honest and every run that starts without an install
    directory can resume, then a removal of the backup finds a complete tree installed, and at every
    moment the install directory or the backup holds a complete tree. -/
theorem history_backup_kept (w : World) (old : Tree) (s : Disk) (runs : List (List Bytes × List Outcome))
    (hargs : ∀ run ∈ runs, ∀ a, parseArgs run.1 = some a → a.target = w.installDir)
    (hold : s.install = some old) (hstart : TrustsStaging w (packagesOf runs) s → Staged w (packagesOf runs) s)
    (hhonest : ∀ x ∈ (updaterDevice w).history main runs s, StepHonest w (packagesOf runs) x.2)
    (hresumes : ∀ x ∈ (updaterDevice w).history main runs s, ∀ a, parseArgs x.1 = some a →
      StepResumes w a.zip x.2) :
    ∀ x ∈ (updaterDevice w).history main runs s,
      (x.2.op = .removeTree .backup →
        ∃ t, x.2.before.install = some t ∧ Complete w (packagesOf runs) old t)
      ∧ ∃ t, Complete w (packagesOf runs) old t ∧ (((updaterDevice w).after x.2).install = some t
          ∨ ((updaterDevice w).after x.2).backup = some t) := by
  have hconsistent : Consistent w (packagesOf runs) old s := by
    refine ⟨fun t ht => ?_, fun hnone => ?_, hstart⟩
    · exact Or.inl (Option.some.inj (ht.symm.trans hold))
    · rw [hold] at hnone
      cases hnone
  -- both invariants hold at the start, and each run keeps both
  have hcopy : HasCopy s := hasCopy_of_install (by rw [hold]; simp)
  have hsound := history_sound (updaterDevice w)
    (fun argv => (honestContract w (packagesOf runs) old).both (copyContract w argv))
    (fun t => Consistent w (packagesOf runs) old t ∧ HasCopy t) main runs (fun _ => rfl)
    (fun run hrun t ht => by
      have h1 : Honest w (packagesOf runs) old (main run.1) t :=
        main_honest ht.1 fun a ha => ⟨hargs run hrun a ha, run, hrun, a, ha, rfl⟩
      have h2 := main_copy ht.2 (hargs run hrun)
      exact (h1.both h2).mono fun _ _ _ => trivial)
    ⟨hconsistent, hcopy⟩ (fun x hx => ⟨hhonest x hx, hresumes x hx⟩)
  intro x hx
  obtain ⟨⟨⟨hbefore, _⟩, hremoves⟩, hafter, hkept⟩ := hsound x hx
  refine ⟨fun hop => ?_, ?_⟩
  · obtain ⟨t, ht⟩ := Option.ne_none_iff_exists'.mp (hremoves hop)
    exact ⟨t, ht, hbefore.install t ht⟩
  · cases hinst : ((updaterDevice w).after x.2).install with
    | some t => exact ⟨t, hafter.install t hinst, Or.inl rfl⟩
    | none =>
        obtain ⟨t, ht⟩ := Option.ne_none_iff_exists'.mp (hkept hinst)
        exact ⟨t, hafter.backup hinst t ht, Or.inr ht⟩

/-- The command line of a later update, with another package. -/
def otherArgv : List Bytes := sampleArgv.set 2 (ascii "/tmp/q.zip")

theorem parseArgs_sampleArgv :
    parseArgs sampleArgv = some ⟨ascii "/tmp/p.zip", ascii "/opt/app", 7, ascii "app"⟩ := by
  decide +kernel

theorem parseArgs_otherArgv :
    parseArgs otherArgv = some ⟨ascii "/tmp/q.zip", ascii "/opt/app", 7, ascii "app"⟩ := by
  decide +kernel

/-- An update that runs through, and then another one. -/
theorem history_backup_kept_sample :
    ∃ x ∈ (updaterDevice sampleWorld).history main
        [(sampleArgv, List.replicate 20 .ok), (otherArgv, List.replicate 20 .ok)] sampleDisk,
      x.2.op = .removeTree .backup
        ∧ (∃ t, x.2.before.install = some t
          ∧ Complete sampleWorld (packagesOf [(sampleArgv, List.replicate 20 .ok),
              (otherArgv, List.replicate 20 .ok)]) [([ascii "app"], .file (ascii "1"))] t)
        ∧ ∃ t, Complete sampleWorld (packagesOf [(sampleArgv, List.replicate 20 .ok),
              (otherArgv, List.replicate 20 .ok)]) [([ascii "app"], .file (ascii "1"))] t
          ∧ (((updaterDevice sampleWorld).after x.2).install = some t
            ∨ ((updaterDevice sampleWorld).after x.2).backup = some t) := by
  have h : ∀ x ∈ (updaterDevice sampleWorld).history main
      [(sampleArgv, List.replicate 20 .ok), (otherArgv, List.replicate 20 .ok)] sampleDisk,
      x.2.outcome = .ok ∧ stepLoadState x.2.outcome x.2.before ≠ .overrun
        ∧ ((match x.2.op with | .extract _ => true | _ => false) = true → x.2.before.staging = none)
        ∧ (x.2.op = .loadState → x.2.before.install ≠ none) := by
    decide +kernel
  have hremove : ∃ x ∈ (updaterDevice sampleWorld).history main
      [(sampleArgv, List.replicate 20 .ok), (otherArgv, List.replicate 20 .ok)] sampleDisk,
      x.2.op = .removeTree .backup := by
    decide +kernel
  obtain ⟨x, hx, hop⟩ := hremove
  have hkept := history_backup_kept sampleWorld [([ascii "app"], .file (ascii "1"))] sampleDisk
    [(sampleArgv, List.replicate 20 .ok), (otherArgv, List.replicate 20 .ok)] ?_ rfl ?_ ?_ ?_ x hx
  · exact ⟨x, hx, hop, hkept.1 hop, hkept.2⟩
  · intro run hrun a ha
    rcases List.mem_cons.mp hrun with rfl | hrun
    · rw [← Option.some.inj (parseArgs_sampleArgv.symm.trans ha)]
      rfl
    · rcases List.mem_singleton.mp hrun with rfl
      rw [← Option.some.inj (parseArgs_otherArgv.symm.trans ha)]
      rfl
  · intro htrust
    exact absurd htrust (not_trustsStaging_of_state_none rfl)
  · intro x hx
    obtain ⟨hok, hload, hextract, _⟩ := h x hx
    refine stepHonest_of_ok hok hload ?_
    rintro ⟨zip, hop⟩
    exact hextract (by rw [hop])
  · rintro ⟨argv, o, e, s⟩ hx a _
    obtain ⟨hok, _, _, hinst⟩ := h _ hx
    cases o with
    | loadState => exact fun hnone => absurd hnone (hinst rfl)
    | isDir p => cases p <;> first | trivial | exact fun _ => hok
    | _ => trivial

/-- A run that crashes between its two moves, and then an update with another package: the state file
    does not fit it, and its full update removes the backup while there is no install directory. -/
theorem history_loses_application :
    ∃ x ∈ (updaterDevice sampleWorld).history main
        [(sampleArgv, List.replicate 7 .ok), (otherArgv, List.replicate 20 .ok)] sampleDisk,
      x.2.op = .removeTree .backup ∧ ((updaterDevice sampleWorld).after x.2).install = none
        ∧ ((updaterDevice sampleWorld).after x.2).backup = none := by
  decide +kernel

end LibUpdate
