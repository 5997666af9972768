import LibUpdate.Foundation.Refinement
import LibUpdate.Updater.Recovery

/-!
# `Updater.Crashes` — how many crashes an update survives

After each crash the next run reads the state file and goes on. What it finds is not always what a first crash leaves:
after a crash right between the two moves the state file says `"extracted"` while nothing is to be extracted any more,
and the runs that follow keep it until they remove it. `Survives` counts how many more crashes such a disk can take.

Three crashes are survived, wherever they come. The fourth may come in the middle of an extraction while the state file
still says that all is extracted; then the run after it installs what there is.
-/

namespace LibUpdate

/-- A disk from which an update comes to its end, after up to `k` more crashes. -/
inductive Survives (w : World) (zip : Bytes) (k : Nat) (s : Disk) : Prop where
  | fresh (t : Tree) (hk : k ≤ 3) (hinst : s.install = some t) (hstate : s.state = none)
  | staged (t : Tree) (hk : k ≤ 3) (hinst : s.install = some t) (hstg : s.staging = some (w.package zip))
      (hstate : s.state = some (savedText w zip .extracted))
  | backedUp (t : Tree) (p : Phase) (hk : k ≤ 3) (hearly : p = .extracted → k ≤ 2) (hinst : s.install = none)
      (hstg : s.staging = some (w.package zip)) (hbak : s.backup = some t)
      (hstate : s.state = some (savedText w zip p))
  | installed (p : Phase) (hk : k ≤ 3)
      (hearly : p = .extracted → s.staging = none ∧ k ≤ 1 ∧ (s.backup = none → k = 0))
      (hinst : s.install = some (w.package zip)) (hstate : s.state = some (savedText w zip p))

variable {w : World} {zip app : Bytes} {s : Disk} {R : Disk → Prop} {j k : Nat}

theorem Survives.mono (h : Survives w zip k s) (hjk : j ≤ k) : Survives w zip j s := by
  cases h with
  | fresh t hk hinst hstate => exact .fresh t (by omega) hinst hstate
  | staged t hk hinst hstg hstate => exact .staged t (by omega) hinst hstg hstate
  | backedUp t p hk hearly hinst hstg hbak hstate =>
      exact .backedUp t p (by omega) (fun hp => by have := hearly hp; omega) hinst hstg hbak hstate
  | installed p hk hearly hinst hstate =>
      refine .installed p (by omega) (fun hp => ?_) hinst hstate
      obtain ⟨hstg, hone, hnone⟩ := hearly hp
      exact ⟨hstg, by omega, fun hbak => by have := hnone hbak; omega⟩

/-- A removal of the backup touches nothing else. -/
theorem stepRemoveBackup_cases {e : Outcome} {t : Disk} {r : UpdateStatus} (h : stepRemoveTree .backup e s = (r, t)) :
    ∃ b, t = { s with backup := b } := by
  rcases stepRemoveTree_cases h with rfl | rfl | ⟨u, left, _, _, rfl⟩
  · exact ⟨t.backup, rfl⟩
  · exact ⟨none, rfl⟩
  · exact ⟨_, rfl⟩

/-! ## The resume points -/

section Resume

variable (hR : ∀ t, Survives w zip k t → R t) (happ : updateValidatePath app true = .ok)
  (hlen : (w.installDir ++ stateSuffix).length < pathMax) (hnested : w.nested = false)
include hR happ

theorem finishUpdate_survives {p : Phase} (hk : k ≤ 3) (hearly : p = .extracted → k = 0)
    (hinst : s.install = some (w.package zip)) (hstg : s.staging = none)
    (hstate : s.state = some (savedText w zip p)) : Recovers w zip R (finishUpdate app) s := by
  have hany : ∀ b, R { s with backup := b } := fun b =>
    hR _ (.installed p hk (fun hp => ⟨hstg, by rw [hearly hp]; exact Nat.zero_le 1, fun _ => hearly hp⟩) hinst hstate)
  refine recovers_perform (fun e r t h => ?_) (fun r t h => ?_)
  · obtain ⟨b, rfl⟩ := stepRemoveBackup_cases h
    exact hany b
  · obtain rfl := stepRemoveTree_ok h
    refine recovers_perform (fun e r t h => ?_) (fun r t h => ?_)
    · obtain rfl := (Prod.mk.inj h).2
      cases e with
      | ok => exact hR _ (.fresh _ hk hinst rfl)
      | fail => exact hany none
      | halfway left => exact hany none
    · obtain rfl := (Prod.mk.inj h).2
      exact relaunch_recovers (hR _ (.fresh _ hk hinst rfl)) ⟨hinst, hstg, rfl, rfl⟩ happ

include hlen hnested

/-- Only between the move and the save that follows does the state file stay behind. -/
theorem resumePostBackup_survives {u : Tree} {p : Phase} (hk : k ≤ 3) (hearly : p = .extracted → k ≤ 1)
    (hinst : s.install = none) (hstg : s.staging = some (w.package zip)) (hbak : s.backup = some u)
    (hstate : s.state = some (savedText w zip p)) : Recovers w zip R (resumePostBackup zip app) s := by
  have hlate : Phase.installed ≠ .extracted := by
    decide
  refine recovers_perform (fun e r t h => ?_) (fun r t h => ?_)
  · rcases stepMove_cases h with ⟨_, rfl⟩ | ⟨_, v, hv, _, rfl⟩
    · exact hR _ (.backedUp u p hk (fun hp => Nat.le_succ_of_le (hearly hp)) hinst hstg hbak hstate)
    · obtain rfl : v = w.package zip := Option.some.inj (hv.symm.trans hstg)
      refine hR _ (.installed p hk (fun hp => ⟨rfl, hearly hp, fun hnone => ?_⟩) rfl hstate)
      exact absurd (hbak.symm.trans hnone) (by simp)
  · obtain ⟨rfl, rfl⟩ := stepMove_ok hnested h hstg hinst
    rw [ite_ok]
    refine recovers_perform (fun e r t h => ?_) (fun r t h => ?_)
    · obtain ⟨part, rfl | rfl⟩ := stepSaveState_cases h
      · refine hR _ (.installed p hk (fun hp => ⟨rfl, hearly hp, fun hnone => ?_⟩) rfl hstate)
        exact absurd (hbak.symm.trans hnone) (by simp)
      · exact hR _ (.installed .installed hk (fun hp => absurd hp hlate) rfl rfl)
    · obtain ⟨_, rfl⟩ := stepSaveState_ok hlen h
      exact finishUpdate_survives hR happ hk (fun hp => absurd hp hlate) rfl rfl rfl

theorem resumePostExtract_survives (hk : k ≤ 2) (hs : ∀ part, R { s with part := part }) {u : Tree}
    (hinst : s.install = some u) (hstg : s.staging = some (w.package zip)) :
    Recovers w zip R (resumePostExtract zip app) s := by
  have hk' : k ≤ 3 := Nat.le_succ_of_le hk
  refine recovers_perform (fun e r t h => ?_) (fun r t h => ?_)
  · obtain ⟨part, rfl | rfl⟩ := stepSaveState_cases h
    · exact hs part
    · exact hR _ (.staged u hk' hinst hstg rfl)
  obtain ⟨rfl, rfl⟩ := stepSaveState_ok hlen h
  rw [ite_ok]
  refine recovers_perform (fun e r t h => ?_) (fun r t h => ?_)
  · obtain ⟨b, rfl⟩ := stepRemoveBackup_cases h
    exact hR _ (.staged u hk' hinst hstg rfl)
  obtain rfl := stepRemoveTree_ok h
  refine recovers_perform (fun e r t h => ?_) (fun r t h => ?_)
  · rcases stepMove_cases h with ⟨_, rfl⟩ | ⟨_, v, _, _, rfl⟩
    · exact hR _ (.staged u hk' hinst hstg rfl)
    · exact hR _ (.backedUp v .extracted hk' (fun _ => hk) rfl hstg rfl rfl)
  obtain ⟨rfl, rfl⟩ := stepMove_ok hnested h hinst rfl
  rw [ite_ok]
  -- here a crash leaves the state file behind
  refine recovers_perform (fun e r t h => ?_) (fun r t h => ?_)
  · obtain ⟨part, rfl | rfl⟩ := stepSaveState_cases h
    · exact hR _ (.backedUp u .extracted hk' (fun _ => hk) rfl hstg rfl rfl)
    · exact hR _ (.backedUp u .installBackedUp hk' (fun hp => by cases hp) rfl hstg rfl rfl)
  obtain ⟨rfl, rfl⟩ := stepSaveState_ok hlen h
  rw [ite_ok]
  exact resumePostBackup_survives hR happ hlen hnested hk' (fun hp => by cases hp) rfl hstg rfl rfl

theorem resumeFull_survives (hk : k ≤ 2)
    (hs : ∀ t : Disk, t.install = s.install → t.state = s.state → R t) {u : Tree} (hinst : s.install = some u) :
    Recovers w zip R (resumeFull zip app) s := by
  refine recovers_perform (fun e r t h => ?_) (fun r t h => ?_)
  · obtain ⟨hother, hst⟩ := stepRemoveTree_frame h
    exact hs _ (hother .install (by decide)) hst
  obtain rfl := stepRemoveTree_ok h
  refine recovers_perform (fun e r t h => ?_) (fun r t h => ?_)
  · obtain rfl := (Prod.mk.inj h).2
    cases e <;> exact hs _ rfl rfl
  obtain ⟨rfl, rfl⟩ := Prod.mk.inj h
  rw [ite_ok]
  refine resumePostExtract_survives hR happ hlen hnested hk (fun part => hs _ rfl rfl) hinst ?_
  show some ((w.package zip).overlay (w.cleared zip [])) = _
  rw [World.cleared_nil, FileTree.overlay_nil]

end Resume

/-! ## Runs that crash -/

variable {argv : List Bytes} {a : Args}

/-- What a disk shows that survives one crash less. -/
abbrev SurvivesLess (w : World) (zip : Bytes) (k : Nat) (s : Disk) : Prop := k ≠ 0 → Survives w zip (k - 1) s

/-- The next run comes to the end, or crashes where one crash less is survived. -/
theorem survives_run (ha : Accepted w argv a app) (hnested : w.nested = false)
    (hreads : ∀ p, ReadsBack p w.installDir a.zip) (h : Survives w a.zip k s) :
    Recovers w a.zip (SurvivesLess w a.zip k) (main argv) s := by
  have hR : ∀ t, Survives w a.zip (k - 1) t → SurvivesLess w a.zip k t := fun _ ht _ => ht
  have hs : SurvivesLess w a.zip k s := fun _ => h.mono (Nat.sub_le k 1)
  rw [main_eq ha]
  cases h with
  | fresh u hk hinst hstate =>
      refine loadAndResume_recovers_missing ha hs hstate ?_
      refine resumeFull_survives hR ha.app ha.state_short hnested (by omega) (fun t hi hst => hR _ ?_) hinst
      exact .fresh u (by omega) (hi.trans hinst) (hst.trans hstate)
  | staged u hk hinst hstg hstate =>
      refine loadAndResume_recovers_found ha hs hstate (hreads _) ?_
      have hresume : updaterDetermineResume s.install.isSome s.staging.isSome s.backup.isSome
          (savedState .extracted w.installDir a.zip) = .postExtract := by
        rw [hinst, hstg]
        cases s.backup <;> rfl
      rw [hresume]
      refine resumePostExtract_survives hR ha.app ha.state_short hnested (by omega) (fun part => hR _ ?_) hinst hstg
      exact .staged u (by omega) hinst hstg hstate
  | backedUp u p hk hearly hinst hstg hbak hstate =>
      refine loadAndResume_recovers_found ha hs hstate (hreads _) ?_
      rw [hinst, hstg, hbak]
      exact resumePostBackup_survives hR ha.app ha.state_short hnested (by omega)
        (fun hp => by have := hearly hp; omega) hinst hstg hbak hstate
  | installed p hk hearly hinst hstate =>
      refine loadAndResume_recovers_found ha hs hstate (hreads _) ?_
      rw [hinst]
      -- an update that starts over keeps the state file until it has extracted
      have hfull : (p = .extracted → k = 0) → Recovers w a.zip (SurvivesLess w a.zip k) (resumeFull a.zip app) s := by
        intro hlate
        refine resumeFull_survives hR ha.app ha.state_short hnested (by omega) (fun t hi hst hpos => ?_) hinst
        exact .installed p (by omega) (fun hp => absurd (hlate hp) hpos) (hi.trans hinst) (hst.trans hstate)
      cases hstg : s.staging with
      | some v =>
          have hlate : p ≠ .extracted := by
            rintro rfl
            exact absurd (hstg.symm.trans (hearly rfl).1) (by simp)
          have hresume : updaterDetermineResume (some (w.package a.zip)).isSome (some v).isSome s.backup.isSome
              (savedState p w.installDir a.zip) = .full := by
            cases hbak : s.backup <;> cases p <;> first | rfl | exact absurd rfl hlate
          rw [hresume]
          exact hfull fun hp => absurd hp hlate
      | none =>
          cases hbak : s.backup with
          | some u =>
              exact finishUpdate_survives hR ha.app (by omega) (fun hp => by have := (hearly hp).2.1; omega) hinst hstg
                hstate
          | none => exact hfull fun hp => (hearly hp).2.2 hbak

/-- **Three crashes are survived.** Start with a tree installed and no state file. Up to three runs may crash, each
    after any undisturbed steps or in the next one; the run after them, undisturbed, installs the package. -/
theorem survives_crashes (ha : Accepted w argv a app) (hnested : w.nested = false)
    (hreads : ReadsBack .installBackedUp w.installDir a.zip) {u : Tree} (hinst : s.install = some u)
    (hstate : s.state = none) (crashes : List (List Outcome)) (hcrashes : ∀ es ∈ crashes, CutOff (· = .ok) es)
    (hthree : crashes.length ≤ 3) :
    Recovers w a.zip (fun _ => True) (main argv) ((updaterDevice w).cutRuns (main argv) crashes s) := by
  have hall : ∀ p, ReadsBack p w.installDir a.zip := fun p => readsBack_of_second_save hreads p
  have hstep : ∀ k t, Survives w a.zip (k + 1) t →
      Recovers w a.zip (Survives w a.zip k) (main argv) t ∧ Survives w a.zip k t := by
    intro k t ht
    refine ⟨(survives_run ha hnested hall ht).crash_mono fun _ hless => ?_, ht.mono (Nat.le_succ k)⟩
    exact hless (Nat.succ_ne_zero k)
  have hleft : Survives w a.zip 0 ((updaterDevice w).cutRuns (main argv) crashes s) :=
    Device.cutRuns_keeps hstep rfl crashes hcrashes 0 s (.fresh u hthree hinst hstate)
  exact (survives_run ha hnested hall hleft).crash_mono fun _ _ => trivial

/-! ## The fourth crash -/

/-- An undisturbed run succeeds and leaves the tree installed. -/
abbrev Places (w : World) (v : Tree) (p : UpdaterProg Exit) (s : Disk) : Prop :=
  Safe (updaterDevice w) (crashContract (updaterDevice w) (· = .ok) fun _ => True)
    (fun r t => r = .ok ∧ t.install = some v) p s

/-- The rule for one step. -/
theorem places_perform {v : Tree} {o : Op} {f : Res o → UpdaterProg Exit}
    (hf : ∀ r t, (updaterDevice w).step o .ok s = (r, t) → Places w v (f r) t) :
    Places w v (Prog.perform o >>= f) s :=
  recovers_perform (fun _ _ _ _ => trivial) hf

theorem finishUpdate_places (happ : updateValidatePath app true = .ok) {v : Tree} (hinst : s.install = some v) :
    Places w v (finishUpdate app) s := by
  refine places_perform fun r t h => ?_
  obtain rfl := stepRemoveTree_ok h
  refine places_perform fun r t h => ?_
  obtain rfl := (Prod.mk.inj h).2
  refine places_perform fun r t h => ?_
  obtain ⟨rfl, rfl⟩ := Prod.mk.inj h
  have hok : stepRelaunch app .ok = .ok := by
    simp [stepRelaunch, happ]
  rw [hok, ite_ok]
  exact ⟨rfl, hinst⟩

/-- An undisturbed run from the `"extracted"` save on puts into place what is staged, whatever it is. -/
theorem resumePostExtract_places (happ : updateValidatePath app true = .ok)
    (hlen : (w.installDir ++ stateSuffix).length < pathMax) (hnested : w.nested = false) {u v : Tree}
    (hinst : s.install = some u) (hstg : s.staging = some v) : Places w v (resumePostExtract zip app) s := by
  refine places_perform fun r t h => ?_
  obtain ⟨rfl, rfl⟩ := stepSaveState_ok hlen h
  rw [ite_ok]
  refine places_perform fun r t h => ?_
  obtain rfl := stepRemoveTree_ok h
  refine places_perform fun r t h => ?_
  obtain ⟨rfl, rfl⟩ := stepMove_ok hnested h hinst rfl
  rw [ite_ok]
  refine places_perform fun r t h => ?_
  obtain ⟨rfl, rfl⟩ := stepSaveState_ok hlen h
  rw [ite_ok]
  refine places_perform fun r t h => ?_
  obtain ⟨rfl, rfl⟩ := stepMove_ok hnested h hstg rfl
  rw [ite_ok]
  refine places_perform fun r t h => ?_
  exact finishUpdate_places happ (stepSaveState_frame h).1

/-- What a run ends in, and what it returns. -/
abbrev ends (w : World) (p : UpdaterProg Exit) (es : List Outcome) (s : Disk) : Disk × Option Exit :=
  (((updaterDevice w).run p es s).final, ((updaterDevice w).run p es s).result)

theorem ends_perform {o : Op} {f : Res o → UpdaterProg Exit} {e : Outcome} {es : List Outcome} {t : Disk} {r : Res o}
    (h : (updaterDevice w).step o e s = (r, t)) : ends w (Prog.perform o >>= f) (e :: es) s = ends w (f r) es t := by
  rw [ends, Prog.perform_bind, Device.run_op_cons, h]

/-- What the waiting for the parent answers where nothing is disturbed. -/
theorem step_waitParent_ok (ha : Accepted w argv a app) (s : Disk) :
    (updaterDevice w).step (.waitParent a.pid) .ok s = (.ok, s) := by
  have hpid := parseArgs_pid ha.parse
  have hpos : ¬ a.pid ≤ 0 := by
    omega
  simp [updaterDevice, stepWaitParent, hpos]

/-- A removal that is not disturbed leaves nothing, whatever it answers. -/
theorem step_removeTree_ok (p : Place) (s : Disk) :
    (updaterDevice w).step (.removeTree p) .ok s = ((stepRemoveTree p .ok s).1, s.set p none) :=
  Prod.ext rfl (stepRemoveTree_ok rfl)

/-- A run that finds its state file is at its resume point after five steps. -/
theorem ends_resumed (ha : Accepted w argv a app) {p : Phase} (hstate : s.state = some (savedText w a.zip p))
    (hreads : ReadsBack p w.installDir a.zip) (es : List Outcome) :
    ends w (main argv) (List.replicate 5 .ok ++ es) s
      = ends w (resumeAt a.zip app (updaterDetermineResume s.install.isSome s.staging.isSome s.backup.isSome
          (savedState p w.installDir a.zip))) es s := by
  have hload : (updaterDevice w).step .loadState .ok s = (.found (savedState p w.installDir a.zip), s) := by
    have hshort : ¬ 4096 ≤ (savedText w a.zip p).length := Nat.not_le.mpr hreads.1
    show (stepLoadState .ok s, s) = _
    rw [stepLoadState_ok, hstate, load_savedText ha, if_neg hshort, if_neg hreads.2]
  have hisDir : ∀ q, (updaterDevice w).step (.isDir q) .ok s = ((s.get q).isSome, s) := fun _ => rfl
  rw [main_eq ha]
  refine (ends_perform hload).trans ?_
  dsimp only
  rw [ha.target, if_neg (Decidable.not_not.mpr (updaterStateValidate_saved (updateValidateInstallPaths_ok ha.paths)))]
  refine (ends_perform (hisDir .install)).trans ?_
  refine (ends_perform (hisDir .staging)).trans ?_
  refine (ends_perform (hisDir .backup)).trans ?_
  refine (ends_perform (step_waitParent_ok ha s)).trans ?_
  rw [ite_ok, ha.target, ha.join]
  rfl

/-- The outcomes of four runs that crash: between the two moves, after the second move, after the removal of the
    backup, and in the middle of an extraction that leaves `left`. -/
def fourCrashes (left : Tree) : List (List Outcome) :=
  [List.replicate 7 .ok, List.replicate 6 .ok, List.replicate 6 .ok, List.replicate 6 .ok ++ [.halfway left]]

theorem fourCrashes_cutOff (left : Tree) : ∀ es ∈ fourCrashes left, CutOff (· = .ok) es := by
  have hcut : ∀ n (tail : List Outcome), tail.length ≤ 1 → CutOff (· = .ok) (List.replicate n .ok ++ tail) :=
    fun n tail htail => ⟨_, tail, rfl, fun e he => List.eq_of_mem_replicate he, htail⟩
  have hok : ∀ n, CutOff (· = Outcome.ok) (List.replicate n .ok) := fun n => by
    simpa using hcut n [] (Nat.zero_le 1)
  intro es hes
  simp only [fourCrashes, List.mem_cons, List.not_mem_nil, or_false] at hes
  rcases hes with rfl | rfl | rfl | rfl
  · exact hok 7
  · exact hok 6
  · exact hok 6
  · exact hcut 6 _ (Nat.le_refl 1)

/-- Undisturbed, the directories move where their places are free. -/
theorem step_move_ok (hnested : w.nested = false) {src dst : Place} {v : Tree} {t : Disk} (hsrc : t.get src = some v)
    (hdst : t.get dst = none) :
    (updaterDevice w).step (.move src dst) .ok t = (.ok, (t.set src none).set dst (some v)) := by
  obtain ⟨hr, ht⟩ := stepMove_ok hnested (Eq.refl (stepMove w src dst .ok t)) hsrc hdst
  exact Prod.ext hr ht

/-- The first crash comes between the two moves, before the second save. -/
theorem ends_betweenMoves (ha : Accepted w argv a app) (hnested : w.nested = false) {u : Tree}
    (hinst : s.install = some u) (hstate : s.state = none) :
    ends w (main argv) (List.replicate 7 .ok) s
      = (⟨none, some (w.package a.zip), some u, some (savedText w a.zip .extracted), none⟩, none) := by
  have hload : (updaterDevice w).step .loadState .ok s = (.missing, s) := by
    simp [updaterDevice, stepLoadState, hstate]
  have hextract : (updaterDevice w).step (.extract a.zip) .ok (s.set .staging none)
      = (.ok, { s with staging := some (w.package a.zip) }) := by
    show (_, { s with staging := some ((w.package a.zip).overlay (w.cleared a.zip [])) }) = _
    rw [World.cleared_nil, FileTree.overlay_nil]
  have hsave : ∀ t, (updaterDevice w).step (.saveState .extracted a.zip) .ok t
      = (.ok, { t with state := some (savedText w a.zip .extracted), part := none }) := fun t => by
    obtain ⟨hr, ht⟩ := stepSaveState_ok ha.state_short (Eq.refl (stepSaveState w .extracted a.zip .ok t))
    exact Prod.ext hr ht
  have hmove : ∀ t : Disk, t.install = s.install → t.backup = none → (updaterDevice w).step (.move .install .backup) .ok t
      = (.ok, { t with install := none, backup := some u }) :=
    fun t hi hb => step_move_ok hnested (hi.trans hinst) hb
  rw [main_eq ha, show List.replicate 7 Outcome.ok = [.ok, .ok, .ok, .ok, .ok, .ok, .ok] from rfl]
  refine (ends_perform hload).trans ?_
  refine (ends_perform (step_waitParent_ok ha s)).trans ?_
  rw [ite_ok, ha.target, ha.join]
  refine (ends_perform (step_removeTree_ok .staging s)).trans ?_
  refine (ends_perform hextract).trans ?_
  rw [ite_ok]
  refine (ends_perform (hsave _)).trans ?_
  rw [ite_ok]
  refine (ends_perform (step_removeTree_ok .backup _)).trans ?_
  refine (ends_perform (hmove _ ?_ ?_)).trans ?_
  · rfl
  · rfl
  rw [ite_ok]
  rfl

/-- A part of an extraction, and a state file that says that all is extracted. -/
def halfExtracted (w : World) (zip : Bytes) (left : Tree) : Disk :=
  ⟨some (w.package zip), some left, none, some (savedText w zip .extracted), none⟩

/-- What the four crashes leave. -/
theorem cutRuns_fourCrashes (ha : Accepted w argv a app) (hnested : w.nested = false)
    (hreads : ∀ p, ReadsBack p w.installDir a.zip) {u : Tree} (hinst : s.install = some u) (hstate : s.state = none)
    (left : Tree) : (updaterDevice w).cutRuns (main argv) (fourCrashes left) s = halfExtracted w a.zip left := by
  have hfirst := ends_betweenMoves ha hnested hinst hstate
  have hsecond : ends w (main argv) (List.replicate 5 .ok ++ [.ok])
      ⟨none, some (w.package a.zip), some u, some (savedText w a.zip .extracted), none⟩
      = (⟨some (w.package a.zip), none, some u, some (savedText w a.zip .extracted), none⟩, none) := by
    refine (ends_resumed ha rfl (hreads _) [.ok]).trans ?_
    refine (ends_perform (step_move_ok hnested rfl rfl)).trans ?_
    rw [ite_ok]
    rfl
  have hthird : ends w (main argv) (List.replicate 5 .ok ++ [.ok])
      ⟨some (w.package a.zip), none, some u, some (savedText w a.zip .extracted), none⟩
      = (⟨some (w.package a.zip), none, none, some (savedText w a.zip .extracted), none⟩, none) := by
    refine (ends_resumed ha rfl (hreads _) [.ok]).trans ?_
    exact (ends_perform (step_removeTree_ok .backup _)).trans rfl
  have hfourth : ends w (main argv) (List.replicate 5 .ok ++ [.ok, .halfway left])
      ⟨some (w.package a.zip), none, none, some (savedText w a.zip .extracted), none⟩
      = (halfExtracted w a.zip left, none) := by
    refine (ends_resumed ha rfl (hreads _) [.ok, .halfway left]).trans ?_
    refine (ends_perform (step_removeTree_ok .staging _)).trans ?_
    exact (ends_perform rfl).trans rfl
  show (ends w (main argv) (List.replicate 5 .ok ++ [.ok, .halfway left]) (ends w (main argv)
    (List.replicate 5 .ok ++ [.ok]) (ends w (main argv) (List.replicate 5 .ok ++ [.ok]) (ends w (main argv)
      (List.replicate 7 .ok) s).1).1).1).1 = _
  rw [hfirst, hsecond, hthird, hfourth]

/-- **The fourth crash may not be survived.** Whatever an extraction can leave half-way, there are four crashes after
    which an undisturbed run returns success with just that installed. -/
theorem fourth_crash_installs_anything (w : World) (argv : List Bytes) (a : Args) (app : Bytes) (u : Tree) (s : Disk)
    (ha : Accepted w argv a app) (hnested : w.nested = false)
    (hreads : ReadsBack .installBackedUp w.installDir a.zip) (hinst : s.install = some u) (hstate : s.state = none)
    (left : Tree) :
    ∃ crashes : List (List Outcome), crashes.length = 4 ∧ (∀ es ∈ crashes, CutOff (· = .ok) es)
      ∧ ∀ m, 14 ≤ m →
        let again := (updaterDevice w).run (main argv) (List.replicate m .ok)
          ((updaterDevice w).cutRuns (main argv) crashes s)
        again.result = some .ok ∧ again.final.install = some left := by
  have hall : ∀ p, ReadsBack p w.installDir a.zip := fun p => readsBack_of_second_save hreads p
  refine ⟨fourCrashes left, rfl, fourCrashes_cutOff left, fun m hm => ?_⟩
  rw [cutRuns_fourCrashes ha hnested hall hinst hstate left]
  obtain ⟨n, rfl⟩ : ∃ n, m = 5 + n := ⟨m - 5, by omega⟩
  intro again
  -- the last run goes on after the extraction
  have hends : ends w (main argv) (List.replicate (5 + n) .ok) (halfExtracted w a.zip left)
      = ends w (resumePostExtract a.zip app) (List.replicate n .ok) (halfExtracted w a.zip left) := by
    have hstale : (halfExtracted w a.zip left).state = some (savedText w a.zip .extracted) := rfl
    rw [← List.replicate_append_replicate]
    exact ends_resumed ha hstale (hall _) _
  have hplaces : Places w left (resumePostExtract a.zip app) (halfExtracted w a.zip left) :=
    resumePostExtract_places ha.app ha.state_short hnested rfl rfl
  have hok : ∀ ev ∈ ((updaterDevice w).run (resumePostExtract a.zip app) (List.replicate n .ok)
      (halfExtracted w a.zip left)).events, ev.outcome = .ok :=
    fun ev hev => List.eq_of_mem_replicate ((updaterDevice w).outcome_mem hev)
  have hlong : 9 ≤ (List.replicate n Outcome.ok).length := by
    rw [List.length_replicate]
    omega
  obtain ⟨r, hr⟩ := Option.isSome_iff_exists.mp
    ((updaterDevice w).result_isSome_of_atMost resumePostExtract_atMost hlong _)
  obtain ⟨rfl, hplaced⟩ := (hplaces.run_sound hok).2 r hr
  obtain ⟨hfinal, hresult⟩ := Prod.mk.inj hends
  exact ⟨hresult.trans hr, (congrArg Disk.install hfinal).trans hplaced⟩

/-- The sample installation ends with an empty directory for a package. -/
theorem fourth_crash_installs_anything_sample :
    ∃ crashes : List (List Outcome), crashes.length = 4 ∧ (∀ es ∈ crashes, CutOff (· = .ok) es)
      ∧ ((updaterDevice sampleWorld).run (main sampleArgv) (List.replicate 14 .ok)
          ((updaterDevice sampleWorld).cutRuns (main sampleArgv) crashes sampleDisk)).final.install = some [] := by
  obtain ⟨crashes, hlen, hcut, hends⟩ := fourth_crash_installs_anything sampleWorld sampleArgv _ _ _ sampleDisk
    accepted_sampleArgv rfl (by decide +kernel) rfl rfl []
  exact ⟨crashes, hlen, hcut, (hends 14 (Nat.le_refl 14)).2⟩

end LibUpdate
