import LibUpdate.Updater.History
import LibUpdate.Updater.StateRoundTrip

/-!
# `Updater.Recovery` — a second run after a crash

`Recoverable` lists the shapes in which a run that met no failure can leave the disk when it crashes.
From each of them one undisturbed run ends with the package installed and everything else cleaned up,
provided the state files that the updater writes read back and the directories can be renamed. Where
they do not read back, a crash between the two moves is not recovered from.
-/

namespace LibUpdate

/-- The text of the state file saved in phase `p`. -/
def savedText (w : World) (zip : Bytes) (p : Phase) : Bytes :=
  stateText p.text w.installDir (w.installDir ++ stagingSuffix) (w.installDir ++ backupSuffix) zip

/-- A command line that `main` takes up: it parses, its paths are accepted, and its application can be
    started. -/
structure Accepted (w : World) (argv : List Bytes) (a : Args) (app : Bytes) : Prop where
  parse : parseArgs argv = some a
  target : a.target = w.installDir
  paths : updateValidateInstallPaths a.zip w.installDir (w.installDir ++ stagingSuffix)
    (w.installDir ++ backupSuffix) (w.installDir ++ stateSuffix) = .ok
  join : joinInstallApp w.installDir a.app = some app
  app : updateValidatePath app true = .ok

/-- What a crash can leave after undisturbed operations. From each of these states the next run comes to its end. -/
inductive Recoverable (w : World) (zip : Bytes) (s : Disk) : Prop where
  | fresh (t : Tree) (hinst : s.install = some t) (hstate : s.state = none)
  | staged (t : Tree) (hinst : s.install = some t) (hstg : s.staging = some (w.package zip))
      (hstate : s.state = some (savedText w zip .extracted))
  | backedUp (t : Tree) (p : Phase) (hinst : s.install = none) (hstg : s.staging = some (w.package zip))
      (hbak : s.backup = some t) (hstate : s.state = some (savedText w zip p))
  | installed (p : Phase) (hinst : s.install = some (w.package zip)) (hstg : s.staging = none)
      (hstate : s.state = some (savedText w zip p))

/-- The end of a successful update: the package is installed, and neither staging, backup nor a state file is left.
    -/
structure Done (w : World) (zip : Bytes) (s : Disk) : Prop where
  install : s.install = some (w.package zip)
  staging : s.staging = none
  backup : s.backup = none
  state : s.state = none

variable {w : World} {zip app : Bytes} {s : Disk} {R : Disk → Prop}

/-- Up to a crash the run keeps `R`, and without one it ends well. -/
abbrev Recovers (w : World) (zip : Bytes) (R : Disk → Prop) (p : UpdaterProg Exit) (s : Disk) : Prop :=
  Safe (updaterDevice w) (crashContract (updaterDevice w) (· = .ok) R)
    (fun r t => r = .ok ∧ Done w zip t) p s

/-- The rule for one operation. -/
theorem recovers_perform {Q : Exit → Disk → Prop} {o : Op} {f : Res o → UpdaterProg Exit}
    (hany : ∀ e r t, (updaterDevice w).step o e s = (r, t) → R t)
    (hf : ∀ r t, (updaterDevice w).step o .ok s = (r, t) →
      Safe (updaterDevice w) (crashContract (updaterDevice w) (· = .ok) R) Q (f r) t) :
    Safe (updaterDevice w) (crashContract (updaterDevice w) (· = .ok) R) Q (Prog.perform o >>= f) s := by
  intro e he
  obtain rfl : e = .ok := he
  exact ⟨fun e => hany e _ _ rfl, hany .ok _ _ rfl, hf _ _ rfl⟩

/-- The rule for an operation that only asks. -/
theorem recovers_asks {Q : Exit → Disk → Prop} {o : Op} {f : Res o → UpdaterProg Exit} (ho : o.Asks) (hs : R s)
    (h : Safe (updaterDevice w) (crashContract (updaterDevice w) (· = .ok) R) Q
      (f ((updaterDevice w).step o .ok s).1) s) :
    Safe (updaterDevice w) (crashContract (updaterDevice w) (· = .ok) R) Q (Prog.perform o >>= f) s := by
  refine recovers_perform (fun e r t ht => ?_) (fun r t ht => ?_)
  · obtain rfl : s = t := (step_asks ho e s).symm.trans (congrArg Prod.snd ht)
    exact hs
  · obtain rfl : s = t := (step_asks ho .ok s).symm.trans (congrArg Prod.snd ht)
    rwa [show ((updaterDevice w).step o .ok s).1 = r from congrArg Prod.fst ht] at h

/-! ## Undisturbed steps -/

theorem stepSaveState_ok (hlen : (w.installDir ++ stateSuffix).length < pathMax) {p : Phase} {t : Disk}
    {r : UpdateStatus} (h : stepSaveState w p zip .ok s = (r, t)) :
    r = .ok ∧ t = { s with state := some (savedText w zip p), part := none } := by
  have hpart : snprintf (pathMax + 32) (w.installDir ++ stateSuffix ++ ascii ".part")
      = some (w.installDir ++ stateSuffix ++ ascii ".part") := by
    rw [snprintf_eq_some]
    have hsuffix : (ascii ".part").length = 5 := by decide
    refine ⟨?_, rfl⟩
    rw [List.length_append, hsuffix]
    omega
  simp only [stepSaveState, updaterStateSaveAtomic, hpart] at h
  exact ⟨(Prod.mk.inj h).1.symm, (Prod.mk.inj h).2.symm⟩

/-- However a save turns out, the state file is the new one or the old one. -/
theorem stepSaveState_cases {p : Phase} {e : Outcome} {t : Disk} {r : UpdateStatus}
    (h : stepSaveState w p zip e s = (r, t)) :
    ∃ part, t = { s with part := part } ∨ t = { s with state := some (savedText w zip p), part := part } := by
  obtain rfl := (Prod.mk.inj h).2
  unfold updaterStateSaveAtomic
  cases snprintf (pathMax + 32) (w.installDir ++ stateSuffix ++ ascii ".part") with
  | none => exact ⟨s.part, Or.inl rfl⟩
  | some _ =>
      cases e with
      | ok => exact ⟨none, Or.inr rfl⟩
      | fail => exact ⟨s.part, Or.inl rfl⟩
      | halfway left => exact ⟨_, Or.inl rfl⟩

theorem stepMove_ok {src dst : Place} {u : Tree} {t : Disk} {r : UpdateStatus} (hnested : w.nested = false)
    (h : stepMove w src dst .ok s = (r, t)) (hsrc : s.get src = some u) (hdst : s.get dst = none) :
    r = .ok ∧ t = (s.set src none).set dst (some u) := by
  simp only [stepMove, hsrc, hdst, hnested, true_or, and_self, if_true] at h
  exact ⟨(Prod.mk.inj h).1.symm, (Prod.mk.inj h).2.symm⟩

/-! ## The end of an update -/

theorem relaunch_recovers (hs : R s) (hdone : Done w zip s) (happ : updateValidatePath app true = .ok) :
    Recovers w zip R (relaunch app) s := by
  refine recovers_asks trivial hs ?_
  have hok : ((updaterDevice w).step (.relaunch app) .ok s).1 = .ok := by
    show stepRelaunch app .ok = .ok
    simp [stepRelaunch, happ]
  rw [hok, ite_ok]
  exact ⟨rfl, hdone⟩

section Resume

variable (hR : ∀ t, Recoverable w zip t → R t) (happ : updateValidatePath app true = .ok)
  (hlen : (w.installDir ++ stateSuffix).length < pathMax) (hnested : w.nested = false)
include hR happ

theorem finishUpdate_recovers {p : Phase} (hinst : s.install = some (w.package zip))
    (hstg : s.staging = none) (hstate : s.state = some (savedText w zip p)) :
    Recovers w zip R (finishUpdate app) s := by
  refine recovers_perform (fun e r t h => ?_) (fun r t h => ?_)
  · obtain ⟨hother, hst⟩ := stepRemoveTree_frame h
    exact hR _ (.installed p ((hother .install (by decide)).trans hinst)
      ((hother .staging (by decide)).trans hstg) (hst.trans hstate))
  · obtain rfl := stepRemoveTree_ok h
    refine recovers_perform (fun e r t h => ?_) (fun r t h => ?_)
    · obtain rfl := (Prod.mk.inj h).2
      cases e with
      | ok => exact hR _ (.fresh _ hinst rfl)
      | fail => exact hR _ (.installed p hinst hstg hstate)
      | halfway left => exact hR _ (.installed p hinst hstg hstate)
    · obtain rfl := (Prod.mk.inj h).2
      exact relaunch_recovers (hR _ (.fresh _ hinst rfl)) ⟨hinst, hstg, rfl, rfl⟩ happ

/-! ## The resume points -/

include hlen hnested

theorem resumePostBackup_recovers {u : Tree} {p : Phase} (hinst : s.install = none)
    (hstg : s.staging = some (w.package zip)) (hbak : s.backup = some u)
    (hstate : s.state = some (savedText w zip p)) :
    Recovers w zip R (resumePostBackup zip app) s := by
  refine recovers_perform (fun e r t h => ?_) (fun r t h => ?_)
  · rcases stepMove_cases h with ⟨_, rfl⟩ | ⟨_, v, hv, _, rfl⟩
    · exact hR _ (.backedUp u p hinst hstg hbak hstate)
    · obtain rfl : v = w.package zip := Option.some.inj (hv.symm.trans hstg)
      exact hR _ (.installed p rfl rfl hstate)
  · obtain ⟨rfl, rfl⟩ := stepMove_ok hnested h hstg hinst
    rw [ite_ok]
    refine recovers_perform (fun e r t h => ?_) (fun r t h => ?_)
    · obtain ⟨part, rfl | rfl⟩ := stepSaveState_cases h
      · exact hR _ (.installed p rfl rfl hstate)
      · exact hR _ (.installed .installed rfl rfl rfl)
    · obtain ⟨_, rfl⟩ := stepSaveState_ok hlen h
      exact finishUpdate_recovers hR happ rfl rfl rfl

theorem resumePostExtract_recovers (hs : ∀ part, R { s with part := part }) {u : Tree}
    (hinst : s.install = some u) (hstg : s.staging = some (w.package zip)) :
    Recovers w zip R (resumePostExtract zip app) s := by
  refine recovers_perform (fun e r t h => ?_) (fun r t h => ?_)
  · obtain ⟨part, rfl | rfl⟩ := stepSaveState_cases h
    · exact hs part
    · exact hR _ (.staged u hinst hstg rfl)
  obtain ⟨rfl, rfl⟩ := stepSaveState_ok hlen h
  rw [ite_ok]
  -- the state file says `"extracted"` until the next save
  refine recovers_perform (fun e r t h => ?_) (fun r t h => ?_)
  · obtain ⟨hother, hst⟩ := stepRemoveTree_frame h
    exact hR _ (.staged u ((hother .install (by decide)).trans hinst)
      ((hother .staging (by decide)).trans hstg) hst)
  obtain rfl := stepRemoveTree_ok h
  refine recovers_perform (fun e r t h => ?_) (fun r t h => ?_)
  · rcases stepMove_cases h with ⟨_, rfl⟩ | ⟨_, v, _, _, rfl⟩
    · exact hR _ (.staged u hinst hstg rfl)
    · exact hR _ (.backedUp v .extracted rfl hstg rfl rfl)
  obtain ⟨rfl, rfl⟩ := stepMove_ok hnested h hinst rfl
  rw [ite_ok]
  refine recovers_perform (fun e r t h => ?_) (fun r t h => ?_)
  · obtain ⟨part, rfl | rfl⟩ := stepSaveState_cases h
    · exact hR _ (.backedUp u .extracted rfl hstg rfl rfl)
    · exact hR _ (.backedUp u .installBackedUp rfl hstg rfl rfl)
  obtain ⟨rfl, rfl⟩ := stepSaveState_ok hlen h
  rw [ite_ok]
  exact resumePostBackup_recovers hR happ hlen hnested rfl hstg rfl rfl

theorem resumeFull_recovers (hs : ∀ t : Disk, t.install = s.install → t.state = s.state → R t) {u : Tree}
    (hinst : s.install = some u) : Recovers w zip R (resumeFull zip app) s := by
  refine recovers_perform (fun e r t h => ?_) (fun r t h => ?_)
  · obtain ⟨hother, hst⟩ := stepRemoveTree_frame h
    exact hs _ (hother .install (by decide)) hst
  obtain rfl := stepRemoveTree_ok h
  refine recovers_perform (fun e r t h => ?_) (fun r t h => ?_)
  · obtain rfl := (Prod.mk.inj h).2
    cases e <;> exact hs _ rfl rfl
  obtain ⟨rfl, rfl⟩ := Prod.mk.inj h
  rw [ite_ok]
  refine resumePostExtract_recovers hR happ hlen hnested (fun part => hs _ rfl rfl) hinst ?_
  show some ((w.package zip).overlay (w.cleared zip [])) = _
  rw [World.cleared_nil, FileTree.overlay_nil]

end Resume

/-! ## From the command line to the resume point -/

variable {argv : List Bytes} {a : Args}

theorem Accepted.state_short (ha : Accepted w argv a app) :
    (w.installDir ++ stateSuffix).length < pathMax :=
  (updateValidatePath_eq_ok.mp (updateValidateInstallPaths_ok ha.paths).state).1.short

theorem waitAndResume_recovers (ha : Accepted w argv a app) (hs : R s) {resume : Resume}
    (h : Recovers w zip R (resumeAt a.zip app resume) s) : Recovers w zip R (waitAndResume a resume) s := by
  refine recovers_asks trivial hs ?_
  have hpid : 0 < a.pid := parseArgs_pid ha.parse
  have hok : ((updaterDevice w).step (.waitParent a.pid) .ok s).1 = .ok := by
    show stepWaitParent a.pid .ok = .ok
    rw [stepWaitParent, if_neg]
    simp only [ne_eq, not_true, or_false]
    omega
  rw [hok, ite_ok, ha.target, ha.join]
  exact h

/-- Without a state file the run is a full update. -/
theorem loadAndResume_recovers_missing (ha : Accepted w argv a app) (hs : R s) (hstate : s.state = none)
    (h : Recovers w zip R (resumeAt a.zip app .full) s) : Recovers w zip R (loadAndResume a) s := by
  refine recovers_asks trivial hs ?_
  have hmissing : ((updaterDevice w).step .loadState .ok s).1 = .missing := by
    show stepLoadState .ok s = .missing
    rw [stepLoadState_ok, hstate]
    rfl
  rw [hmissing]
  exact waitAndResume_recovers ha hs h

theorem load_savedText (ha : Accepted w argv a app) (p : Phase) :
    updaterStateLoad (some (savedText w a.zip p))
      = if 4096 ≤ (savedText w a.zip p).length then .overrun
        else if HidesKey w.installDir then .error
        else .found (savedState p w.installDir a.zip) := by
  have hpaths := updateValidateInstallPaths_ok ha.paths
  have htext : savedText w a.zip p = ch '{' :: membersText (stateMembers (savedState p w.installDir a.zip)) :=
    stateText_members (savedState p w.installDir a.zip)
  rw [htext]
  exact updaterStateLoad_saved hpaths.install hpaths.zip ha.state_short

/-- A saved state file that reads back makes the run resume. -/
theorem loadAndResume_recovers_found (ha : Accepted w argv a app) (hs : R s) {p : Phase}
    (hstate : s.state = some (savedText w a.zip p)) (hreads : ReadsBack p w.installDir a.zip)
    (h : Recovers w zip R (resumeAt a.zip app (updaterDetermineResume s.install.isSome s.staging.isSome
      s.backup.isSome (savedState p w.installDir a.zip))) s) :
    Recovers w zip R (loadAndResume a) s := by
  refine recovers_asks trivial hs ?_
  have hfound : ((updaterDevice w).step .loadState .ok s).1 = .found (savedState p w.installDir a.zip) := by
    have hshort : ¬ 4096 ≤ (savedText w a.zip p).length := Nat.not_le.mpr hreads.1
    show stepLoadState .ok s = _
    rw [stepLoadState_ok, hstate, load_savedText ha, if_neg hshort, if_neg hreads.2]
  rw [hfound]
  dsimp only
  rw [ha.target, if_neg (Decidable.not_not.mpr (updaterStateValidate_saved (updateValidateInstallPaths_ok ha.paths)))]
  -- the three directories are seen as they are
  refine recovers_asks trivial hs ?_
  refine recovers_asks trivial hs ?_
  refine recovers_asks trivial hs ?_
  exact waitAndResume_recovers ha hs h

/-- Accepted arguments get `main` to the state file. -/
theorem main_eq (ha : Accepted w argv a app) : main argv = loadAndResume a := by
  rw [main, ha.parse]
  exact updaterMain_eq ha.target ha.paths

/-! ## The two runs -/

/-- **A crash leaves a recoverable disk.** -/
theorem recoverable_of_crash (ha : Accepted w argv a app) (hnested : w.nested = false) {u : Tree}
    (hinst : s.install = some u) (hstate : s.state = none) {es tail : List Outcome}
    (hes : ∀ e ∈ es, e = .ok) (htail : tail.length ≤ 1) :
    Recoverable w a.zip ((updaterDevice w).run (main argv) (es ++ tail) s).final := by
  have hs : Recoverable w a.zip s := .fresh u hinst hstate
  have hfull : Recovers w a.zip (Recoverable w a.zip) (resumeAt a.zip app .full) s :=
    resumeFull_recovers (fun _ h => h) ha.app ha.state_short hnested
      (fun t hi hst => .fresh u (hi.trans hinst) (hst.trans hstate)) hinst
  rw [main_eq ha]
  exact (loadAndResume_recovers_missing ha hs hstate hfull).crash_sound hs rfl hes htail

/-- **An undisturbed run recovers.** -/
theorem recovers_of_recoverable (ha : Accepted w argv a app) (hnested : w.nested = false)
    (hreads : ∀ p, ReadsBack p w.installDir a.zip) (h : Recoverable w a.zip s) :
    Recovers w a.zip (fun _ => True) (main argv) s := by
  have hR : ∀ t, Recoverable w a.zip t → (fun _ : Disk => True) t := fun _ _ => trivial
  rw [main_eq ha]
  cases h with
  | fresh u hinst hstate =>
      refine loadAndResume_recovers_missing ha trivial hstate ?_
      exact resumeFull_recovers hR ha.app ha.state_short hnested (fun _ _ _ => trivial) hinst
  | staged u hinst hstg hstate =>
      refine loadAndResume_recovers_found ha trivial hstate (hreads _) ?_
      -- whatever the backup is, an installed tree and a staged package resume after extraction
      have hresume : updaterDetermineResume s.install.isSome s.staging.isSome s.backup.isSome
          (savedState .extracted w.installDir a.zip) = .postExtract := by
        rw [hinst, hstg]
        cases s.backup <;> rfl
      rw [hresume]
      exact resumePostExtract_recovers hR ha.app ha.state_short hnested (fun _ => trivial) hinst hstg
  | backedUp u p hinst hstg hbak hstate =>
      refine loadAndResume_recovers_found ha trivial hstate (hreads _) ?_
      rw [hinst, hstg, hbak]
      exact resumePostBackup_recovers hR ha.app ha.state_short hnested hinst hstg hbak hstate
  | installed p hinst hstg hstate =>
      refine loadAndResume_recovers_found ha trivial hstate (hreads _) ?_
      rw [hinst, hstg]
      cases hbak : s.backup with
      | some u => exact finishUpdate_recovers hR ha.app hinst hstg hstate
      | none => exact resumeFull_recovers hR ha.app ha.state_short hnested (fun _ _ _ => trivial) hinst

/-- The text of the second save is the longest. -/
theorem readsBack_of_second_save {installDir : Bytes} (h : ReadsBack .installBackedUp installDir zip)
    (p : Phase) : ReadsBack p installDir zip := by
  refine ⟨Nat.lt_of_le_of_lt ?_ h.1, h.2⟩
  have hphase : (jsonEmitEscapedString p.text).length
      ≤ (jsonEmitEscapedString Phase.installBackedUp.text).length := by
    cases p <;> decide
  simp only [stateText, List.length_append]
  omega

/-! ## Where recovery fails -/

/-- An undisturbed run does not succeed. -/
abbrev Fails (w : World) (p : UpdaterProg Exit) (s : Disk) : Prop :=
  Safe (updaterDevice w) (crashContract (updaterDevice w) (· = .ok) fun _ => True) (fun r _ => r ≠ .ok) p s

theorem fails_perform {o : Op} {f : Res o → UpdaterProg Exit}
    (hf : ∀ r t, (updaterDevice w).step o .ok s = (r, t) → Fails w (f r) t) :
    Fails w (Prog.perform o >>= f) s :=
  recovers_perform (fun _ _ _ _ => trivial) hf

theorem abandonUpdate_fails : Fails w abandonUpdate s := by
  refine fails_perform fun r t _ => ?_
  refine fails_perform fun r t _ => ?_
  exact Exit.noConfusion

/-- Where the install directory cannot be moved away, the update fails. -/
theorem resumeFull_fails (h : w.nested = true ∨ s.install = none) : Fails w (resumeFull zip app) s := by
  refine fails_perform fun r t ht => ?_
  obtain rfl := stepRemoveTree_ok ht
  refine fails_perform fun r t ht => ?_
  obtain ⟨rfl, rfl⟩ := Prod.mk.inj ht
  rw [ite_ok]
  refine fails_perform fun r t ht => ?_
  obtain ⟨hinst, _, _⟩ := stepSaveState_frame ht
  split
  · exact abandonUpdate_fails
  refine fails_perform fun r t' ht' => ?_
  have hinst' : t'.install = s.install :=
    ((stepRemoveTree_frame ht').1 .install (by decide)).trans hinst
  refine fails_perform fun r t ht => ?_
  -- the move of install to backup is where the run gives up
  have hr : r = .error := by
    rcases h with hnested | hnone
    · exact (Prod.mk.inj (ht.symm.trans (stepMove_nested hnested _ _ _ _))).1
    · rcases stepMove_cases ht with ⟨hr, _⟩ | ⟨_, u, hu, _⟩
      · exact hr
      · rw [Disk.get_install, hinst', hnone] at hu
        cases hu
  rw [hr, ite_error]
  exact abandonUpdate_fails

theorem waitAndResume_fails (h : w.nested = true ∨ s.install = none) :
    Fails w (waitAndResume a .full) s := by
  refine fails_perform fun r t ht => ?_
  obtain ⟨rfl, rfl⟩ := Prod.mk.inj ht
  split
  · exact Exit.noConfusion
  · cases joinInstallApp a.target a.app with
    | none => exact Exit.noConfusion
    | some app => exact resumeFull_fails h

/-- Without a state file, where the install directory cannot be moved away, the run fails. -/
theorem loadAndResume_fails_missing (hstate : s.state = none) (h : w.nested = true) :
    Fails w (loadAndResume a) s := by
  refine fails_perform fun r t ht => ?_
  obtain ⟨rfl, rfl⟩ := Prod.mk.inj ht
  have hmissing : stepLoadState .ok s = .missing := by simp [stepLoadState, hstate]
  rw [hmissing]
  exact waitAndResume_fails (Or.inl h)

/-- A saved state file that does not read back makes the run lose its way. -/
theorem loadAndResume_fails (ha : Accepted w argv a app) {p : Phase} (hinst : s.install = none)
    (hstate : s.state = some (savedText w a.zip p)) (hreads : ¬ ReadsBack p w.installDir a.zip) :
    Fails w (loadAndResume a) s := by
  refine fails_perform fun r t ht => ?_
  obtain ⟨rfl, rfl⟩ := Prod.mk.inj ht
  have hload : stepLoadState .ok s = .overrun ∨ stepLoadState .ok s = .error := by
    simp only [stepLoadState, hstate, load_savedText ha]
    by_cases hlong : 4096 ≤ (savedText w a.zip p).length
    · exact Or.inl (if_pos hlong)
    · rw [if_neg hlong, if_pos]
      · exact Or.inr rfl
      · exact Decidable.not_not.mp fun hhide => hreads ⟨Nat.not_le.mp hlong, hhide⟩
  rcases hload with hload | hload
  · rw [hload]
    exact Exit.noConfusion
  · rw [hload]
    refine fails_perform fun r t ht => ?_
    obtain rfl := (Prod.mk.inj ht).2
    exact waitAndResume_fails (Or.inr hinst)

/-- The eighth operation of a first run is the save between the two moves. -/
theorem run_to_second_save (ha : Accepted w argv a app) (hnested : w.nested = false) {u : Tree}
    (hinst : s.install = some u) (hstate : s.state = none) :
    ((updaterDevice w).run (main argv) (List.replicate 8 .ok) s).final
      = ⟨none, some (w.package a.zip), some u, some (savedText w a.zip .installBackedUp), none⟩ := by
  have hpid := parseArgs_pid ha.parse
  have hsave : ∀ p t, (updaterDevice w).step (.saveState p a.zip) .ok t
      = (.ok, { t with state := some (savedText w a.zip p), part := none }) := fun p t => by
    obtain ⟨hr, ht⟩ := stepSaveState_ok ha.state_short (Eq.refl (stepSaveState w p a.zip .ok t))
    exact Prod.ext hr ht
  have hload : (updaterDevice w).step .loadState .ok s = (.missing, s) := by
    simp [updaterDevice, stepLoadState, hstate]
  have hwait : (updaterDevice w).step (.waitParent a.pid) .ok s = (.ok, s) := by
    have : ¬ a.pid ≤ 0 := by omega
    simp [updaterDevice, stepWaitParent, this]
  have hremove : ∀ p t, (updaterDevice w).step (.removeTree p) .ok t
      = (((updaterDevice w).step (.removeTree p) .ok t).1, t.set p none) := fun p t =>
    Prod.ext rfl (stepRemoveTree_ok rfl)
  have hextract : (updaterDevice w).step (.extract a.zip) .ok (s.set .staging none)
      = (.ok, { s with staging := some (w.package a.zip) }) := by
    show (_, { s with staging := some ((w.package a.zip).overlay (w.cleared a.zip [])) }) = _
    rw [World.cleared_nil, FileTree.overlay_nil]
  have hmove : ∀ t : Disk, t.install = some u → t.backup = none →
      (updaterDevice w).step (.move .install .backup) .ok t
        = (.ok, { t with install := none, backup := some u }) := fun t h1 h2 => by
    obtain ⟨hr, ht⟩ := stepMove_ok hnested (Eq.refl (stepMove w .install .backup .ok t)) h1 h2
    exact Prod.ext hr ht
  rw [main_eq ha, show List.replicate 8 Outcome.ok = [.ok, .ok, .ok, .ok, .ok, .ok, .ok, .ok] from rfl]
  -- load, wait, remove, extract, save, remove, move, save
  refine ((updaterDevice w).final_perform hload).trans ?_
  refine ((updaterDevice w).final_perform hwait).trans ?_
  rw [ite_ok, ha.target, ha.join]
  refine ((updaterDevice w).final_perform (hremove _ _)).trans ?_
  refine ((updaterDevice w).final_perform hextract).trans ?_
  rw [ite_ok]
  refine ((updaterDevice w).final_perform (hsave _ _)).trans ?_
  rw [ite_ok]
  refine ((updaterDevice w).final_perform (hremove _ _)).trans ?_
  refine ((updaterDevice w).final_perform (hmove _ ?_ ?_)).trans ?_
  · exact hinst
  · rfl
  rw [ite_ok]
  refine ((updaterDevice w).final_perform (hsave _ _)).trans ?_
  rw [ite_ok]
  rfl

/-! ## The returned value -/

theorem relaunch_atMost : (relaunch app).AtMost 1 :=
  .perform fun r => by split <;> exact .ret

theorem finishUpdate_atMost : (finishUpdate app).AtMost 3 :=
  .perform fun _ => .perform fun _ => relaunch_atMost

theorem abandonUpdate_atMost : abandonUpdate.AtMost 2 :=
  .perform fun _ => .perform fun _ => .ret

theorem restoreBackup_atMost : restoreBackup.AtMost 3 := by
  refine .perform fun r => ?_
  split
  · exact .ret
  · exact abandonUpdate_atMost

theorem resumeRollback_atMost : (resumeRollback app).AtMost 4 := by
  refine .perform fun r => ?_
  split
  · exact .ret
  · exact .perform fun _ => .perform fun _ => relaunch_atMost

theorem resumePostBackup_atMost : (resumePostBackup zip app).AtMost 5 := by
  refine .perform fun r => ?_
  split
  · exact restoreBackup_atMost.mono (by decide)
  · exact .perform fun _ => finishUpdate_atMost

theorem resumePostExtract_atMost : (resumePostExtract zip app).AtMost 9 := by
  refine .perform fun r => ?_
  split
  · exact abandonUpdate_atMost.mono (by decide)
  refine .perform fun r => .perform fun r => ?_
  split
  · exact abandonUpdate_atMost.mono (by decide)
  refine .perform fun r => ?_
  split
  · exact restoreBackup_atMost.mono (by decide)
  · exact resumePostBackup_atMost

theorem resumeFull_atMost : (resumeFull zip app).AtMost 11 := by
  refine .perform fun r => .perform fun r => ?_
  split
  · exact abandonUpdate_atMost.mono (by decide)
  · exact resumePostExtract_atMost

theorem resumeAt_atMost (resume : Resume) : (resumeAt zip app resume).AtMost 11 := by
  cases resume with
  | rollback => exact resumeRollback_atMost.mono (by decide)
  | postInstall => exact finishUpdate_atMost.mono (by decide)
  | postBackup => exact resumePostBackup_atMost.mono (by decide)
  | postExtract => exact resumePostExtract_atMost.mono (by decide)
  | full => exact resumeFull_atMost

theorem waitAndResume_atMost (resume : Resume) : (waitAndResume a resume).AtMost 12 := by
  refine .perform fun r => ?_
  split
  · exact .ret
  · cases joinInstallApp a.target a.app with
    | none => exact .ret
    | some app => exact resumeAt_atMost resume

theorem loadAndResume_atMost : (loadAndResume a).AtMost 16 := by
  refine .perform fun r => ?_
  cases r with
  | overrun => exact .ret
  | missing => exact (waitAndResume_atMost .full).mono (by decide)
  | error => exact Prog.AtMost.mono (.perform fun _ => waitAndResume_atMost .full) (by decide)
  | found st =>
      dsimp only
      split
      · exact Prog.AtMost.mono (.perform fun _ => waitAndResume_atMost .full) (by decide)
      · exact .perform fun inst => .perform fun stg => .perform fun bak => waitAndResume_atMost _

/-- **Recovery from one crash.** Start with a tree installed, no state file, and anything in the staging
    and backup directories. Let a run crash after any number of undisturbed operations, or inside the
    next one. Then a second, undisturbed run succeeds and leaves the package installed and nothing else,
    for every such crash, exactly when the state files read back and the install directory is named
    without a trailing slash. -/
theorem single_crash_recovery (w : World) (argv : List Bytes) (a : Args) (app : Bytes) (u : Tree) (s : Disk)
    (ha : Accepted w argv a app) (hinst : s.install = some u) (hstate : s.state = none) :
    (∀ (n : Nat) (tail : List Outcome) (m : Nat), tail.length ≤ 1 → 16 ≤ m →
      let crashed := ((updaterDevice w).run (main argv) (List.replicate n .ok ++ tail) s).final
      let again := (updaterDevice w).run (main argv) (List.replicate m .ok) crashed
      again.result = some .ok ∧ again.final.install = some (w.package a.zip) ∧ again.final.staging = none
        ∧ again.final.backup = none ∧ again.final.state = none)
      ↔ ReadsBack .installBackedUp w.installDir a.zip ∧ w.nested = false := by
  have hok : ∀ m, ∀ e ∈ List.replicate m Outcome.ok, e = .ok := fun m e he => List.eq_of_mem_replicate he
  have hassumes : ∀ (t : Disk) (m : Nat),
      ∀ ev ∈ ((updaterDevice w).run (main argv) (List.replicate m .ok) t).events, ev.outcome = .ok :=
    fun t m ev hev => hok m _ ((updaterDevice w).outcome_mem hev)
  constructor
  · intro h
    -- a run that fails from where a crash left the disk contradicts `h`
    have hno : ∀ n, ¬ Fails w (loadAndResume a) ((updaterDevice w).run (main argv)
        (List.replicate n .ok ++ []) s).final := by
      intro n hfails
      rw [← main_eq ha] at hfails
      exact (hfails.run_sound (hassumes _ 16)).2 _ (h n [] 16 (by decide) (by decide)).1 rfl
    have hnested : w.nested = false := by
      rw [← Bool.not_eq_true]
      intro hnested
      refine hno 0 (loadAndResume_fails_missing ?_ hnested)
      rcases (updaterDevice w).final_mem (main argv) [] s with h0 | ⟨ev, hev, _⟩
      · rw [List.replicate_zero, List.append_nil, h0]
        exact hstate
      · exact absurd ((updaterDevice w).outcome_mem hev) (by simp)
    -- the crash that shows it is the one right after the second save
    refine ⟨Decidable.not_not.mp fun hreads => hno 8 ?_, hnested⟩
    rw [List.append_nil, run_to_second_save ha hnested hinst hstate]
    exact loadAndResume_fails ha rfl rfl hreads
  · rintro ⟨hreads, hnested⟩ n tail m htail hm
    have hrec := recoverable_of_crash ha hnested hinst hstate (hok n) htail
    have hsafe := recovers_of_recoverable ha hnested (fun p => readsBack_of_second_save hreads p) hrec
    have hbound : (main argv).AtMost 16 := by
      rw [main_eq ha]
      exact loadAndResume_atMost
    have hm : 16 ≤ (List.replicate m Outcome.ok).length := by simpa using hm
    have hresult := (updaterDevice w).result_isSome_of_atMost hbound hm
      ((updaterDevice w).run (main argv) (List.replicate n .ok ++ tail) s).final
    obtain ⟨r, hr⟩ := Option.isSome_iff_exists.mp hresult
    obtain ⟨rfl, hdone⟩ := (hsafe.run_sound (hassumes _ m)).2 r hr
    exact ⟨hr, hdone.install, hdone.staging, hdone.backup, hdone.state⟩

theorem accepted_sampleArgv : Accepted sampleWorld sampleArgv
    ⟨ascii "/tmp/p.zip", ascii "/opt/app", 7, ascii "app"⟩ (ascii "/opt/app/app") where
  parse := by decide +kernel
  target := rfl
  paths := by decide +kernel
  join := by decide +kernel
  app := by decide +kernel

/-- The sample installation recovers from a crash inside the second save of its first update. -/
theorem single_crash_recovery_sample :
    ((updaterDevice sampleWorld).run (main sampleArgv) (List.replicate 16 .ok)
      ((updaterDevice sampleWorld).run (main sampleArgv) (List.replicate 7 .ok ++ [.halfway []])
        sampleDisk).final).result = some .ok :=
  ((single_crash_recovery sampleWorld sampleArgv _ _ _ sampleDisk accepted_sampleArgv rfl rfl).mpr
    (by decide +kernel) 7 [.halfway []] 16 (by decide) (by decide)).1

/-- An installation in a directory whose name ends in a quote and a key of the state file. -/
def quotedWorld : World := { sampleWorld with installDir := ascii "/opt/\"staging" }

def quotedArgv : List Bytes := sampleArgv.set 4 (ascii "/opt/\"staging")

/-- A crash after the second save: the state file does not read back, the second run extracts again and
    fails, and there is neither an install directory nor a backup. -/
theorem crash_not_recovered :
    updateValidateInstallPaths (ascii "/tmp/p.zip") quotedWorld.installDir
        (quotedWorld.installDir ++ stagingSuffix) (quotedWorld.installDir ++ backupSuffix)
        (quotedWorld.installDir ++ stateSuffix) = .ok
      ∧ ((updaterDevice quotedWorld).run (main quotedArgv) (List.replicate 16 .ok)
          ((updaterDevice quotedWorld).run (main quotedArgv) (List.replicate 8 .ok) sampleDisk).final).result
        = some .error
      ∧ ((updaterDevice quotedWorld).run (main quotedArgv) (List.replicate 16 .ok)
          ((updaterDevice quotedWorld).run (main quotedArgv) (List.replicate 8 .ok) sampleDisk).final).final
        = ⟨none, none, none, none, none⟩ := by
  decide +kernel

end LibUpdate
