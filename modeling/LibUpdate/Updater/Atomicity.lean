import LibUpdate.Updater.KeptCopy

/-!
# `Updater.Atomicity` — what a failing run leaves

A run starts with the old tree installed, or between the two moves of an earlier one. Whatever its
operations do, at every step the old tree is installed or in the backup, or a tree with the package in
it is installed; and a run that reports an error leaves the old tree installed, unless it could not move
the backup back or never came to its first operation on the directories.

Three things break this. An early return (a wait that fails, an application path that is too long) leaves a run
that started between the moves where it was, without a move back. Such a run that cannot read its state file, or
does not see its directories, starts over, and removes the backup. And what an ignored failure has left in the
staging directory is installed with the package.

The theorems are about the three trees as they are in the model, apart from each other. An install directory
that is written with a trailing slash has the two others inside it (`World.nested`): for the file system itself,
`System.Crash` says the same where there is none.
-/

namespace LibUpdate

/-- The old tree is installed and there is no state file that fits this run, nor one whose reading is
    undefined. -/
structure StartInstalled (w : World) (zip : Bytes) (old : Tree) (s : Disk) : Prop where
  install : s.install = some old
  state : acceptedState w zip s.state = none
  readable : updaterStateLoad s.state ≠ .overrun

/-- An earlier run for the same package stopped between its two moves. -/
structure StartMoved (w : World) (zip : Bytes) (old : Tree) (s : Disk) : Prop where
  install : s.install = none
  backup : s.backup = some old
  staging : s.staging = some (w.package zip)
  state : (acceptedState w zip s.state).isSome

/-- The old tree is still there, or a new one is installed. -/
def Whole (new : Tree → Prop) (old : Tree) (s : Disk) : Prop :=
  s.install = some old ∨ s.backup = some old ∨ ∃ t, s.install = some t ∧ new t

/-- The operation is a move of the backup back to the install directory that fails. -/
def RestoreFails (w : World) (ev : Event Op Outcome Disk) : Prop :=
  ev.op = .move .backup .install ∧ (stepMove w .backup .install ev.outcome ev.before).1 = .error

/-- What is assumed of a run: an extraction gives a new tree; where `moved` says that the run starts
    between the moves, it reads its state file and sees the directories; where `goesOn` says so, it does not
    give up while it waits; where `restores` says so, the backup can be moved back. -/
structure AtomicStep (w : World) (zip : Bytes) (new : Tree → Prop) (moved goesOn restores : Prop)
    (ev : Event Op Outcome Disk) : Prop where
  extract : ev.op = .extract zip → ev.outcome = .ok →
    new ((w.package zip).overlay (w.cleared zip (ev.before.staging.getD [])))
  load : moved → ev.op = .loadState → ev.outcome = .ok
  isDir : moved → ∀ p, ev.op = .isDir p → ev.outcome = .ok
  wait : goesOn → ∀ pid, ev.op = .waitParent pid → ev.outcome = .ok
  restore : restores → ¬ RestoreFails w ev

def atomicContract (w : World) (zip : Bytes) (new : Tree → Prop) (moved goesOn restores : Prop) (old : Tree) :
    Contract Op Outcome Disk where
  assumes := AtomicStep w zip new moved goesOn restores
  ensures _ := True
  invariant := Whole new old

/-- What holds where the run returns: an error leaves the old tree installed, or in the backup where
    the run has given up before it did anything, or the backup could not be moved back. -/
def EndsWhole (s₀ : Disk) (goesOn restores : Prop) (old : Tree) (r : Exit) (t : Disk) : Prop :=
  r = .error → t.install = some old ∨ t.backup = some old ∧ (t = s₀ ∧ ¬ goesOn ∨ ¬ restores)

section

variable {w : World} {new : Tree → Prop} {moved goesOn restores : Prop} {old : Tree} {s₀ s : Disk} {zip app : Bytes}

/-- The run meets the contract and ends well. Each part of `main` has a lemma of this form, from the end of the
    program to its command line. -/
abbrev Atomic (w : World) (zip : Bytes) (new : Tree → Prop) (moved goesOn restores : Prop) (old : Tree) (s₀ : Disk)
    (p : UpdaterProg Exit) (s : Disk) : Prop :=
  Safe (updaterDevice w) (atomicContract w zip new moved goesOn restores old) (EndsWhole s₀ goesOn restores old) p s

/-- The rule for one operation. -/
theorem atomic_perform {o : Op} {f : Res o → UpdaterProg Exit}
    (hwhole : ∀ e r t, (updaterDevice w).step o e s = (r, t) → AtomicStep w zip new moved goesOn restores ⟨o, e, s⟩ →
      Whole new old t)
    (hf : ∀ e r t, (updaterDevice w).step o e s = (r, t) → AtomicStep w zip new moved goesOn restores ⟨o, e, s⟩ →
      Atomic w zip new moved goesOn restores old s₀ (f r) t) :
    Atomic w zip new moved goesOn restores old s₀ (Prog.perform o >>= f) s :=
  fun e he => ⟨trivial, hwhole e _ _ rfl he, hf e _ _ rfl he⟩

/-- The rule for an operation that only asks. -/
theorem atomic_asks {o : Op} {f : Res o → UpdaterProg Exit} (ho : o.Asks) (h : Whole new old s)
    (hf : ∀ e, AtomicStep w zip new moved goesOn restores ⟨o, e, s⟩ →
      Atomic w zip new moved goesOn restores old s₀ (f ((updaterDevice w).step o e s).1) s) :
    Atomic w zip new moved goesOn restores old s₀ (Prog.perform o >>= f) s := by
  refine atomic_perform (fun e r t ht _ => ?_) fun e r t ht he => ?_
  · obtain rfl : s = t := (step_asks ho e s).symm.trans (congrArg Prod.snd ht)
    exact h
  · obtain rfl : s = t := (step_asks ho e s).symm.trans (congrArg Prod.snd ht)
    rw [← show ((updaterDevice w).step o e s).1 = r from congrArg Prod.fst ht]
    exact hf e he

/-! ## With the old tree installed -/

/-- Operations that leave the install directory alone. -/
theorem atomic_perform_installed {o : Op} {f : Res o → UpdaterProg Exit} (h : s.install = some old)
    (hkeep : ∀ e r t, (updaterDevice w).step o e s = (r, t) → t.install = s.install)
    (hf : ∀ e r t, (updaterDevice w).step o e s = (r, t) → AtomicStep w zip new moved goesOn restores ⟨o, e, s⟩ →
      t.install = some old → Atomic w zip new moved goesOn restores old s₀ (f r) t) :
    Atomic w zip new moved goesOn restores old s₀ (Prog.perform o >>= f) s :=
  atomic_perform (fun e r t ht _ => Or.inl ((hkeep e r t ht).trans h))
    (fun e r t ht he => hf e r t ht he ((hkeep e r t ht).trans h))

theorem abandonUpdate_atomic (h : s.install = some old) :
    Atomic w zip new moved goesOn restores old s₀ abandonUpdate s := by
  refine atomic_perform_installed h (fun e r t ht => (stepRemoveTree_frame ht).1 .install (by decide))
    fun e r t _ _ h => ?_
  refine atomic_perform_installed h (fun e r t ht => (stepRemoveState_frame ht).1) fun e r t _ _ h => ?_
  intro _
  exact Or.inl h

/-- Anything but an error ends well. -/
theorem relaunch_atomic (h : Whole new old s) : Atomic w zip new moved goesOn restores old s₀ (relaunch app) s := by
  refine atomic_asks trivial h fun e _ => ?_
  split
  · intro hr
    cases hr
  · intro hr
    cases hr

theorem finishUpdate_atomic {t : Tree} (h : s.install = some t) (hnew : new t) :
    Atomic w zip new moved goesOn restores old s₀ (finishUpdate app) s := by
  refine atomic_perform (fun e r u hu _ => ?_) fun e r u hu _ => ?_
  · exact Or.inr (Or.inr ⟨t, ((stepRemoveTree_frame hu).1 .install (by decide)).trans h, hnew⟩)
  have h₁ : u.install = some t := ((stepRemoveTree_frame hu).1 .install (by decide)).trans h
  refine atomic_perform (fun e r u hu _ => ?_) fun e r u hu _ => ?_
  · exact Or.inr (Or.inr ⟨t, (stepRemoveState_frame hu).1.trans h₁, hnew⟩)
  · exact relaunch_atomic (Or.inr (Or.inr ⟨t, (stepRemoveState_frame hu).1.trans h₁, hnew⟩))

/-! ## Between the moves -/

theorem restoreBackup_atomic (hinst : s.install = none) (hbak : s.backup = some old) :
    Atomic w zip new moved goesOn restores old s₀ restoreBackup s := by
  refine atomic_perform (fun e r t ht _ => ?_) fun e r t ht he => ?_
  · rcases stepMove_cases ht with ⟨_, rfl⟩ | ⟨_, u, hu, _, rfl⟩
    · exact Or.inr (Or.inl hbak)
    · exact Or.inl (hu.symm.trans hbak)
  · rcases stepMove_cases ht with ⟨rfl, rfl⟩ | ⟨rfl, u, hu, _, rfl⟩
    · rw [ite_error]
      intro _
      exact Or.inr ⟨hbak, Or.inr fun hrestores => he.restore hrestores ⟨rfl, (Prod.mk.inj ht).1⟩⟩
    · rw [ite_ok]
      exact abandonUpdate_atomic (hu.symm.trans hbak)

theorem resumePostBackup_atomic {t : Tree} (hinst : s.install = none) (hbak : s.backup = some old)
    (hstg : s.staging = some t) (hnew : new t) :
    Atomic w zip new moved goesOn restores old s₀ (resumePostBackup zip app) s := by
  refine atomic_perform (fun e r u hu _ => ?_) fun e r u hu _ => ?_
  · rcases stepMove_cases hu with ⟨_, rfl⟩ | ⟨_, v, _, _, rfl⟩
    · exact Or.inr (Or.inl hbak)
    · exact Or.inr (Or.inl hbak)
  · rcases stepMove_cases hu with ⟨rfl, rfl⟩ | ⟨rfl, v, hv, _, rfl⟩
    · rw [ite_error]
      exact restoreBackup_atomic hinst hbak
    · rw [ite_ok]
      obtain rfl : v = t := Option.some.inj (hv.symm.trans hstg)
      refine atomic_perform (fun e r u hu _ => ?_) fun e r u hu _ => ?_
      · exact Or.inr (Or.inr ⟨v, (stepSaveState_frame hu).1, hnew⟩)
      · exact finishUpdate_atomic (stepSaveState_frame hu).1 hnew

theorem resumePostExtract_atomic {t : Tree} (h : s.install = some old) (hstg : s.staging = some t)
    (hnew : new t) : Atomic w zip new moved goesOn restores old s₀ (resumePostExtract zip app) s := by
  refine atomic_perform_installed h (fun e r u hu => (stepSaveState_frame hu).1) fun e r u hu _ h => ?_
  replace hstg : u.staging = some t := (stepSaveState_frame hu).2.1.trans hstg
  split
  · exact abandonUpdate_atomic h
  refine atomic_perform_installed h (fun e r v hv => (stepRemoveTree_frame hv).1 .install (by decide))
    fun e r v hv _ h => ?_
  replace hstg : v.staging = some t := ((stepRemoveTree_frame hv).1 .staging (by decide)).trans hstg
  refine atomic_perform (fun e r u hu _ => ?_) fun e r u hu _ => ?_
  · rcases stepMove_cases hu with ⟨_, rfl⟩ | ⟨_, x, hx, _, rfl⟩
    · exact Or.inl h
    · exact Or.inr (Or.inl (hx.symm.trans h))
  rcases stepMove_cases hu with ⟨rfl, rfl⟩ | ⟨rfl, x, hx, _, rfl⟩
  · rw [ite_error]
    exact abandonUpdate_atomic h
  rw [ite_ok]
  obtain rfl : x = old := Option.some.inj (hx.symm.trans h)
  -- the old tree is in the backup now
  refine atomic_perform (fun e r u hu _ => ?_) fun e r u hu _ => ?_
  · exact Or.inr (Or.inl (stepSaveState_frame hu).2.2)
  obtain ⟨hinst, hstg', hbak⟩ := stepSaveState_frame hu
  split
  · exact restoreBackup_atomic hinst hbak
  · exact resumePostBackup_atomic hinst hbak (hstg'.trans hstg) hnew

theorem resumeFull_atomic (h : s.install = some old) :
    Atomic w zip new moved goesOn restores old s₀ (resumeFull zip app) s := by
  refine atomic_perform_installed h (fun e r u hu => (stepRemoveTree_frame hu).1 .install (by decide))
    fun e r u hu _ h => ?_
  refine atomic_perform_installed h (fun e r v hv => ?_) fun e r v hv he h' => ?_
  · rw [← (Prod.mk.inj hv).2]
    cases e <;> rfl
  cases e with
  | ok =>
      obtain ⟨rfl, rfl⟩ := Prod.mk.inj hv
      rw [ite_ok]
      exact resumePostExtract_atomic h' rfl (he.extract rfl rfl)
  | fail =>
      obtain ⟨rfl, rfl⟩ := Prod.mk.inj hv
      rw [ite_error]
      exact abandonUpdate_atomic h'
  | halfway left =>
      obtain ⟨rfl, rfl⟩ := Prod.mk.inj hv
      rw [ite_error]
      exact abandonUpdate_atomic h'

/-! ## From the command line -/

/-- The run waits and joins the application path. Where it may give up, it ends well with the disk as it was. -/
theorem waitAndResume_atomic {a : Args} {resume : Resume} (hzip : a.zip = zip) (hwhole : Whole new old s)
    (hgive : EndsWhole s₀ goesOn restores old .error s
      ∨ goesOn ∧ 0 < a.pid ∧ (joinInstallApp a.target a.app).isSome)
    (h : ∀ app, Atomic w zip new moved goesOn restores old s₀ (resumeAt zip app resume) s) :
    Atomic w zip new moved goesOn restores old s₀ (waitAndResume a resume) s := by
  refine atomic_asks trivial hwhole fun e he => ?_
  split
  · next hwait =>
    rcases hgive with hend | ⟨hgo, hpid, _⟩
    · exact hend
    · refine absurd ?_ hwait
      obtain rfl : e = .ok := he.wait hgo _ rfl
      show stepWaitParent a.pid .ok = .ok
      rw [stepWaitParent, if_neg (by simpa using hpid)]
  · cases happ : joinInstallApp a.target a.app with
    | none =>
        rcases hgive with hend | ⟨_, _, hsome⟩
        · exact hend
        · rw [happ] at hsome
          cases hsome
    | some app =>
        dsimp only
        rw [hzip]
        exact h app

theorem waitAndResume_full_atomic {a : Args} (hzip : a.zip = zip) (h : s.install = some old) :
    Atomic w zip new moved goesOn restores old s₀ (waitAndResume a .full) s :=
  waitAndResume_atomic hzip (Or.inl h) (Or.inl fun _ => Or.inl h) fun _ => resumeFull_atomic h

theorem loadAndResume_atomic_installed {a : Args} (htarget : a.target = w.installDir) (hzip : a.zip = zip)
    (hs : StartInstalled w zip old s) : Atomic w zip new moved goesOn restores old s₀ (loadAndResume a) s := by
  have h : s.install = some old := hs.install
  refine atomic_asks trivial (Or.inl h) fun e _ => ?_
  generalize hstep : ((updaterDevice w).step .loadState e s).1 = r
  have hr : stepLoadState e s = r := hstep
  cases r with
  | overrun =>
      -- only a file whose reading is undefined answers so
      rcases stepLoadState_cases hr with h | h | hread
      · cases h
      · cases h
      · exact absurd hread hs.readable
  | missing => exact waitAndResume_full_atomic hzip h
  | error =>
      refine atomic_perform_installed h (fun e r t ht => (stepRemoveState_frame ht).1) fun e r t _ _ h => ?_
      exact waitAndResume_full_atomic hzip h
  | found st =>
      dsimp only
      split
      · refine atomic_perform_installed h (fun e r t ht => (stepRemoveState_frame ht).1) fun e r t _ _ h => ?_
        exact waitAndResume_full_atomic hzip h
      · next hval =>
        rw [htarget, hzip] at hval
        have hacc := acceptedState_of_found hr (Decidable.not_not.mp hval)
        rw [hs.state] at hacc
        cases hacc

/-- A run that reads its accepted state gets to its resume point with the disk as it was. -/
theorem loadAndResume_atomic_moved {a : Args} (htarget : a.target = w.installDir) (hzip : a.zip = zip)
    (hmoved : moved) (hs : StartMoved w zip old s) (hpkg : new (w.package zip))
    (hgoes : goesOn → 0 < a.pid ∧ (joinInstallApp a.target a.app).isSome) :
    Atomic w zip new moved goesOn restores old s (loadAndResume a) s := by
  have hwhole : Whole new old s := Or.inr (Or.inl hs.backup)
  have hgive : EndsWhole s goesOn restores old .error s
      ∨ goesOn ∧ 0 < a.pid ∧ (joinInstallApp a.target a.app).isSome := by
    by_cases hgo : goesOn
    · exact Or.inr ⟨hgo, hgoes hgo⟩
    · exact Or.inl fun _ => Or.inr ⟨hs.backup, Or.inl ⟨rfl, hgo⟩⟩
  obtain ⟨st, hst⟩ := Option.isSome_iff_exists.mp hs.state
  obtain ⟨hload, hval⟩ := acceptedState_eq_some.mp hst
  refine atomic_asks trivial hwhole fun e he => ?_
  obtain rfl : e = .ok := he.load hmoved rfl
  have hfound : ((updaterDevice w).step .loadState .ok s).1 = .found st := (stepLoadState_ok s).trans hload
  rw [hfound]
  dsimp only
  rw [htarget, hzip, if_neg (Decidable.not_not.mpr hval)]
  -- the three directories are seen, and nothing is changed meanwhile
  refine atomic_asks trivial hwhole fun e₁ he => ?_
  obtain rfl : e₁ = .ok := he.isDir hmoved _ rfl
  refine atomic_asks trivial hwhole fun e₂ he => ?_
  obtain rfl : e₂ = .ok := he.isDir hmoved _ rfl
  refine atomic_asks trivial hwhole fun e₃ he => ?_
  obtain rfl : e₃ = .ok := he.isDir hmoved _ rfl
  have hresume : updaterDetermineResume (stepIsDir .install .ok s) (stepIsDir .staging .ok s)
      (stepIsDir .backup .ok s) st = .postBackup := by
    simp [stepIsDir, hs.install, hs.staging, hs.backup, updaterDetermineResume]
  show Atomic w zip new moved goesOn restores old s (waitAndResume a (updaterDetermineResume (stepIsDir .install .ok s)
    (stepIsDir .staging .ok s) (stepIsDir .backup .ok s) st)) s
  rw [hresume]
  exact waitAndResume_atomic hzip hwhole hgive fun app =>
    resumePostBackup_atomic hs.install hs.backup hs.staging hpkg

/-- The command line does not make a run give up: its paths are accepted, and the application path fits. -/
structure TakenUp (w : World) (a : Args) : Prop where
  paths : updateValidateInstallPaths a.zip w.installDir (w.installDir ++ stagingSuffix)
    (w.installDir ++ backupSuffix) (w.installDir ++ stateSuffix) = .ok
  join : (joinInstallApp w.installDir a.app).isSome

theorem main_atomic {argv : List Bytes} {a : Args} (hargs : parseArgs argv = some a)
    (htarget : a.target = w.installDir)
    (hstart : StartInstalled w a.zip old s ∨ StartMoved w a.zip old s ∧ moved) (hpkg : new (w.package a.zip))
    (hgoes : goesOn → TakenUp w a) : Atomic w a.zip new moved goesOn restores old s (main argv) s := by
  have hend (hgo : ¬ goesOn) : EndsWhole s goesOn restores old .error s := by
    intro _
    rcases hstart with hs | ⟨hs, _⟩
    · exact Or.inl hs.install
    · exact Or.inr ⟨hs.backup, Or.inl ⟨rfl, hgo⟩⟩
  -- arguments that are taken up get to the state file
  have hload : Atomic w a.zip new moved goesOn restores old s (loadAndResume a) s := by
    rcases hstart with hs | ⟨hs, hmoved⟩
    · exact loadAndResume_atomic_installed htarget rfl hs
    · refine loadAndResume_atomic_moved htarget rfl hmoved hs hpkg fun hgo => ⟨parseArgs_pid hargs, ?_⟩
      rw [htarget]
      exact (hgoes hgo).join
  have hmain : main argv = updaterMain a := by
    rw [main, hargs]
  rw [hmain]
  by_cases hgo : goesOn
  · rw [updaterMain_eq htarget (hgoes hgo).paths]
    exact hload
  · unfold updaterMain
    split
    · split
      · exact hend hgo
      · exact hload
    · exact hend hgo

end

/-- What the run does not give up on before it is at its resume point: the command line is taken up, and the wait for
    the parent succeeds. -/
structure GoesOn (w : World) (a : Args) (evs : List (Event Op Outcome Disk)) : Prop where
  taken : TakenUp w a
  waits : ∀ ev ∈ evs, ∀ pid, ev.op = .waitParent pid → ev.outcome = .ok

/-- The sample update, stopped between its moves. -/
def movedDisk : Disk := ((updaterDevice sampleWorld).run (main sampleArgv) (List.replicate 7 .ok) sampleDisk).final

/-- A later command line whose application path is too long. -/
def longAppArgv : List Bytes := sampleArgv.set 8 (List.replicate pathMax (ch 'a'))

example : StartMoved sampleWorld (ascii "/tmp/p.zip") [([ascii "app"], .file (ascii "1"))] movedDisk where
  install := by decide +kernel
  backup := by decide +kernel
  staging := by decide +kernel
  state := by decide +kernel

/-- A leftover file of an earlier package in the staging directory. -/
def staleDisk : Disk := { sampleDisk with staging := some [([ascii "old.dll"], .file (ascii "0"))] }

end LibUpdate
