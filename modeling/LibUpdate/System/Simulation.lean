import LibUpdate.Extract.Undisturbed
import LibUpdate.System.View

/-!
# `System.Simulation` — the steps of the updater are carried out call by call

`Updater.Main` takes a removal, an extraction, a saved state and a move for one step each. Here each of them is the
program over system calls that carries it out, and is shown to do what the step may do: wherever it is cut off, the
disk shows the state before the step or the state after one of its outcomes (`carryOut_implements`). A run of the
updater between any two system calls is then a run of `Updater.Main` between two of its steps.
-/

namespace LibUpdate

/-- A longer directory makes longer paths. -/
theorem joined_length_mono {dir dir' : Bytes} (h : dir.length ≤ dir'.length) (q : List Bytes) :
    (Copy.joined dir q).length ≤ (Copy.joined dir' q).length := by
  induction q generalizing dir dir' with
  | nil => exact h
  | cons x q ih =>
      refine ih ?_
      rw [Copy.length_joinName, Copy.length_joinName]
      omega

/-- The names that are joined to a directory come after it, a separator before each. -/
theorem joined_eq_append (dir : Bytes) (q : List Bytes) : Copy.joined dir q = dir ++ q.flatMap (ch '/' :: ·) := by
  induction q generalizing dir with
  | nil => exact (List.append_nil dir).symm
  | cons x q ih =>
      show Copy.joined (joinName dir x) q = _
      rw [ih, joinName, List.flatMap_cons, List.append_assoc]

theorem joined_length_of_below {dir : Bytes} {p q : List Bytes} (h : p <+: q) :
    (Copy.joined dir p).length ≤ (Copy.joined dir q).length := by
  obtain ⟨r, rfl⟩ := h
  rw [joined_eq_append, joined_eq_append, List.flatMap_append, ← List.append_assoc]
  exact (List.prefix_append _ _).length_le

/-- The names of a path, joined again, are not longer than the path. -/
theorem joined_names_length (dir path : Bytes) :
    (Copy.joined dir (names isPathSep path)).length ≤ (dir ++ ch '/' :: path).length := by
  have hsegs : ((path.splitOnP isPathSep).flatMap (ch '/' :: ·)).length = path.length + 1 := by
    induction path using sep_induction isPathSep with
    | leaf b hb => simp [List.splitOnP_eq_singleton hb]
    | node a c b hc hb ih =>
        rw [splitOnP_last hc hb, List.flatMap_append, List.length_append, ih, List.length_append, List.length_cons]
        simp
        omega
  have hkept : ∀ segs : List Bytes, ((segs.filter fun seg => seg ≠ [] && seg ≠ dot).flatMap (ch '/' :: ·)).length
      ≤ (segs.flatMap (ch '/' :: ·)).length := by
    intro segs
    induction segs with
    | nil => exact Nat.le_refl 0
    | cons seg segs ih =>
        rw [List.filter_cons, List.flatMap_cons, List.length_append]
        split
        · rw [List.flatMap_cons, List.length_append]
          omega
        · omega
  rw [joined_eq_append, List.length_append, List.length_append, List.length_cons]
  exact Nat.add_le_add_left (Nat.le_trans (hkept _) (Nat.le_of_eq hsegs)) _

theorem joined_relKey_length (dir : Bytes) (e : Entry) :
    (Copy.joined dir (relKey e)).length ≤ (fullPathOf dir e).length := by
  unfold relKey fullPathOf
  refine Nat.le_trans (joined_names_length _ _) ?_
  split
  · obtain ⟨seps, heq, _⟩ := stripTrailingSeps_append e.filename
    have hlen := congrArg List.length heq
    rw [List.length_append] at hlen
    rw [List.length_append, List.length_append, List.length_cons, List.length_cons]
    omega
  · exact Nat.le_refl _

namespace Sys

/-- Reading finds no file, is short of memory, or reads the file. -/
theorem stepReadFile_cases {path : Bytes} {t : Fs} (e : ReadTurn) (hdir : t.isDir (fsPath path) = false) :
    stepReadFile path e t = none ∧ (e = .whole → t.fileAt (fsPath path) = none)
      ∨ stepReadFile path e t = some none ∧ e = .noMemory ∧ (∃ f, t.fileAt (fsPath path) = some f)
      ∨ ∃ f, t.fileAt (fsPath path) = some f ∧ stepReadFile path e t = some (some f.data) := by
  unfold stepReadFile
  cases hfile : t.fileAt (fsPath path) with
  | none =>
      left
      rw [hdir]
      cases e <;> exact ⟨rfl, fun _ => rfl⟩
  | some f =>
      cases e with
      | unopened => exact Or.inl ⟨rfl, fun h => by cases h⟩
      | noMemory => exact Or.inr (Or.inl ⟨rfl, rfl, f, rfl⟩)
      | whole => exact Or.inr (Or.inr ⟨f, rfl, rfl⟩)

namespace Setting

variable {w : Setting} {newMode : Nat} {tame strict : Prop} {origin : Fs} {t : Volume} {s : Disk}

/-- The answer and what is there are those of an outcome of the step: the calls have come out as the step can. -/
abbrev Carried (w : Setting) (tame strict : Prop) (origin : Fs) (o : LibUpdate.Op) (s : Disk) (r : LibUpdate.Res o)
    (t : Volume) : Prop :=
  Completes (updaterDevice w.world) (w.Views tame origin) (fun e => strict → e = .ok) o s r t

/-- The program carries out the step: wherever it is cut off, the file system is one that the step can leave, and where
    it returns, its answer is the step's. There is one lemma of this form for each step of `main`. -/
abbrev CarriesOut (newMode : Nat) (w : Setting) (tame strict : Prop) (origin : Fs) (o : LibUpdate.Op) (t : Volume)
    (s : Disk) : Prop :=
  Safe (device newMode)
    (crashContract (device newMode) (Undisturbed strict) (Between (updaterDevice w.world) (w.Views tame origin) o s))
    (w.Carried tame strict origin o s) (w.carryOut o) t

/-! ## Steps that ask -/

theorem loadState_carried (hw : w.Plain) (h : w.Views tame origin t s) :
    CarriesOut newMode w tame strict origin .loadState t s := by
  refine safe_asks (fun _ _ => rfl) (Or.inl h) fun e he => ?_
  -- the file shows as it is, and there is no directory in its place
  have hstate : s.state = (t.1.fileAt (fsPath w.statePath)).map FileNode.data := by
    rw [hw.state]
    exact h.state
  have hnodir : t.1.isDir (fsPath w.statePath) = false := by
    rw [hw.state]
    exact h.files _ List.mem_cons_self
  have hfine : strict → e (.readFile w.statePath) = .whole := fun hstrict => he hstrict (.readFile w.statePath)
  rcases stepReadFile_cases (e (.readFile w.statePath)) hnodir with ⟨hread, hnone⟩ | ⟨hread, hturn⟩ | ⟨f, hf, hread⟩
  · have hanswer : (stepTree newMode (.readFile w.statePath) (e (.readFile w.statePath)) t.1).1 = none := hread
    rw [hanswer]
    by_cases hthere : s.state = none
    · refine ⟨.ok, fun _ => rfl, ?_, h⟩
      show stepLoadState .ok s = .missing
      rw [stepLoadState_ok, hthere]
      rfl
    · refine ⟨.fail, fun hstrict => absurd ?_ hthere, ?_, h⟩
      · rw [hstate, hnone (hfine hstrict)]
        rfl
      · show stepLoadState .fail s = .missing
        unfold stepLoadState
        cases s.state <;> rfl
  · have hanswer : (stepTree newMode (.readFile w.statePath) (e (.readFile w.statePath)) t.1).1 = some none := hread
    rw [hanswer]
    refine ⟨.halfway [], fun hstrict => ?_, ?_, h⟩
    · rw [hfine hstrict] at hturn
      cases hturn.1
    · obtain ⟨f, hf⟩ := hturn.2
      show stepLoadState (.halfway []) s = .error
      unfold stepLoadState
      rw [hstate, hf]
      rfl
  · have hanswer : (stepTree newMode (.readFile w.statePath) (e (.readFile w.statePath)) t.1).1 = some (some f.data) :=
      hread
    rw [hanswer]
    refine ⟨.ok, fun _ => rfl, ?_, h⟩
    show stepLoadState .ok s = _
    rw [stepLoadState_ok, hstate, hf]
    rfl

theorem isDir_carried (hw : w.Plain) (p : Place) (h : w.Views tame origin t s) :
    CarriesOut newMode w tame strict origin (.isDir p) t s := by
  have hshows := (h.place p).isDir (spot_ne_nil w _)
  refine safe_asks (f := .ret) (fun _ _ => rfl) (Or.inl h) fun e he => ?_
  show w.Carried tame strict origin (.isDir p) s (e (.io (.stat (w.placePath p))) && t.1.isDir (fsPath (w.placePath p))) t
  rw [hw.place, hshows]
  cases hturn : e (.io (.stat (w.placePath p))) with
  | true => exact ⟨.ok, fun _ => rfl, rfl, h⟩
  | false =>
      refine ⟨.fail, fun hstrict => ?_, rfl, h⟩
      have hfine : e (.io (.stat (w.placePath p))) = true := he hstrict (.io (.stat (w.placePath p)))
      rw [hfine] at hturn
      cases hturn

theorem waitParent_carried (pid : Int) (h : w.Views tame origin t s) :
    CarriesOut newMode w tame strict origin (.waitParent pid) t s := by
  show Safe _ _ _ (updateWaitForParentExit pid) t
  unfold updateWaitForParentExit
  by_cases hpid : pid ≤ 0
  · rw [if_pos hpid]
    refine ⟨.ok, fun _ => rfl, ?_, h⟩
    show stepWaitParent pid .ok = .error
    rw [stepWaitParent, if_pos (Or.inl hpid)]
  rw [if_neg hpid]
  refine safe_asks (fun _ _ => rfl) (Or.inl h) fun e he => ?_
  show w.Carried tame strict origin (.waitParent pid) s (if e (.awaitExit pid) then .ok else .error) t
  cases hturn : e (.awaitExit pid) with
  | true =>
      refine ⟨.ok, fun _ => rfl, ?_, h⟩
      show stepWaitParent pid .ok = .ok
      rw [stepWaitParent, if_neg (by simp [hpid])]
  | false =>
      refine ⟨.fail, fun hstrict => ?_, ?_, h⟩
      · have hfine : e (.awaitExit pid) = true := he hstrict (.awaitExit pid)
        rw [hfine] at hturn
        cases hturn
      · show stepWaitParent pid .fail = .error
        rw [stepWaitParent, if_pos (Or.inr (by simp))]

theorem relaunch_carried (app : Bytes) (h : w.Views tame origin t s) :
    CarriesOut newMode w tame strict origin (.relaunch app) t s := by
  show Safe _ _ _ (updateRelaunchApp app) t
  have hrefused : updateValidatePath app true ≠ .ok → w.Carried tame strict origin (.relaunch app) s .error t := by
    intro hbad
    refine ⟨.ok, fun _ => rfl, ?_, h⟩
    show stepRelaunch app .ok = .error
    rw [stepRelaunch, if_pos (Or.inl hbad)]
  unfold updateRelaunchApp
  split
  · next hempty =>
    subst hempty
    exact hrefused (by decide)
  split
  · next hbad => exact hrefused hbad
  next hgood =>
  refine safe_asks (fun _ _ => rfl) (Or.inl h) fun e he => ?_
  show w.Carried tame strict origin (.relaunch app) s (if e (.spawn app) then .ok else .error) t
  cases hturn : e (.spawn app) with
  | true =>
      refine ⟨.ok, fun _ => rfl, ?_, h⟩
      show stepRelaunch app .ok = .ok
      rw [stepRelaunch, if_neg (by simpa using hgood)]
  | false =>
      refine ⟨.fail, fun hstrict => ?_, ?_, h⟩
      · have hfine : e (.spawn app) = true := he hstrict (.spawn app)
        rw [hfine] at hturn
        cases hturn
      · show stepRelaunch app .fail = .error
        rw [stepRelaunch, if_pos (Or.inr (by simp))]

/-! ## Removals -/

/-- A directory of which a part is gone shows a part of its tree. -/
theorem shows_part {p : List Bytes} {u : Tree} {t t' : Fs} (h : Shows t p (some u))
    (hgone : Gone (StrictlyBelow p) t t') : ∃ left : Tree, Shows t' p (some (u.filter (left.contains ·))) := by
  have hself : t'.get p = some .dir := (hgone.get_eq fun hbelow => hbelow.2 rfl).trans h.1
  obtain ⟨gone, _, rfl⟩ := hgone
  -- what stays is a part of the tree that names all of it
  refine ⟨u.prune fun q => gone (p ++ q), hself, fun q => ?_⟩
  have hsame : u.filter ((u.prune fun q => gone (p ++ q)).contains ·) = u.prune fun q => gone (p ++ q) := by
    refine List.filter_congr fun n hn => ?_
    rw [Bool.eq_iff_iff, List.contains_iff_mem, FileTree.prune, List.mem_filter, and_iff_right hn]
  rw [hsame, FileTree.get_prune, h.2 q, get_viewAt, get_viewAt, shownAt, shownAt, FileTree.get_prune]
  split
  · split <;> rfl
  · rfl

theorem FitsAt.of_get {t t' : Fs} {p : Place} (h : w.FitsAt t p)
    (hget : ∀ q, (t'.get (w.spot (endingOf p) ++ q)).isSome → (t.get (w.spot (endingOf p) ++ q)).isSome) :
    w.FitsAt t' p := fun q hq => h q (hget q hq)

/-- What fits under the longest name fits under each. -/
theorem FitsAt.below (hw : w.Plain) {t : Fs} {p : Place} (h : w.FitsAt t p) : FitsBelow (w.placePath p) t := by
  intro q hq
  rw [hw.place] at hq
  refine Nat.lt_of_le_of_lt ?_ (h q hq)
  have hending : (endingOf p).length ≤ stagingSuffix.length := by
    cases p <;> decide +kernel
  refine joined_length_mono ?_ q
  rw [placePath_eq, List.length_append, List.length_append]
  omega

theorem removeTree_carried (hw : w.Plain) (htame : strict → tame) (p : Place) (h : w.Views tame origin t s) :
    CarriesOut newMode w tame strict origin (.removeTree p) t s := by
  have hroot : fsPath (w.placePath p) ≠ [] := by
    rw [hw.place]
    exact spot_ne_nil w _
  have hstep : ∀ e, (updaterDevice w.world).step (.removeTree p) e s = stepRemoveTree p e s := fun _ => rfl
  show Safe _ _ _ (updateRemoveTree (w.placePath p)) t
  have hshows := h.place p
  cases hp : s.get p with
  | none =>
      have hnone : t.1.get (fsPath (w.placePath p)) = none := by
        rw [hp] at hshows
        rw [hw.place]
        exact hshows
      refine (updateRemoveTree_missing hroot hnone (Or.inl h)).mono ?_
      rintro status t' ⟨rfl, rfl⟩
      have herror : stepRemoveTree p .ok s = (.error, s) := by
        unfold stepRemoveTree
        rw [hp]
      refine ⟨.ok, fun _ => rfl, ?_⟩
      rw [hstep, herror]
      exact ⟨rfl, h⟩
  | some u =>
      rw [hp] at hshows
      have hthere : (t.1.get (fsPath (w.placePath p))).isSome := by
        rw [hw.place, hshows.1]
        rfl
      -- a part is left, or nothing is
      have hpart : ∀ t' : Volume, Gone (StrictlyBelow (fsPath (w.placePath p))) t.1 t'.1 →
          ∃ left, stepRemoveTree p (.halfway left) s = (.error, s.set p (some (u.filter (left.contains ·))))
            ∧ w.Views tame origin t' (s.set p (some (u.filter (left.contains ·)))) := by
        intro t' hgone
        rw [hw.place] at hgone
        obtain ⟨left, hleft⟩ := shows_part hshows hgone
        refine ⟨left, ?_, h.changePlace p (fun q hq => hgone.get_eq fun hbelow => hq hbelow.1) hleft fun ht => ?_⟩
        · unfold stepRemoveTree
          rw [hp]
        · refine (h.fits ht p).of_get fun q hq => ?_
          obtain ⟨n, hn⟩ := Option.isSome_iff_exists.mp hq
          rw [hgone.of_get hn]
          rfl
      have hwhole : ∀ t' : Volume, t'.1 = t.1.removeUnder (fsPath (w.placePath p)) →
          stepRemoveTree p .ok s = (.ok, s.set p none) ∧ w.Views tame origin t' (s.set p none) := by
        intro t' ht'
        rw [hw.place] at ht'
        have hget : ∀ q, t'.1.get q = if w.spot (endingOf p) <+: q then none else t.1.get q := fun q => by
          rw [ht', FileTree.get_removeUnder]
        refine ⟨?_, h.changePlace p (fun q hq => ?_) ?_ fun _ q hq => ?_⟩
        · unfold stepRemoveTree
          rw [hp]
        · rw [hget, if_neg hq]
        · show t'.1.get _ = none
          rw [hget, if_pos (List.prefix_refl _)]
        · rw [hget, if_pos (List.prefix_append _ _)] at hq
          cases hq
      refine ((updateRemoveTree_removes hroot hthere).crash_mono ?_).mono ?_
      · rintro t' (ht' | ht')
        · obtain ⟨left, heq, hviews⟩ := hpart t' ht'
          exact Or.inr ⟨.halfway left, by rw [hstep, heq]; exact hviews⟩
        · obtain ⟨heq, hviews⟩ := hwhole t' ht'
          exact Or.inr ⟨.ok, by rw [hstep, heq]; exact hviews⟩
      · rintro status t' (⟨rfl, ht'⟩ | ⟨rfl, hgone, hno⟩)
        · obtain ⟨heq, hviews⟩ := hwhole t' ht'
          refine ⟨.ok, fun _ => rfl, ?_⟩
          rw [hstep, heq]
          exact ⟨rfl, hviews⟩
        · obtain ⟨left, heq, hviews⟩ := hpart t' hgone
          refine ⟨.halfway left, fun hstrict => absurd ⟨hstrict, (h.fits (htame hstrict) p).below hw⟩ hno, ?_⟩
          rw [hstep, heq]
          exact ⟨rfl, hviews⟩

/-- The state file goes in one piece: there is nothing in it that could go before it. -/
theorem removeState_carried (hw : w.Plain) (hshort : strict → w.statePath.length < pathMax)
    (h : w.Views tame origin t s) : CarriesOut newMode w tame strict origin .removeState t s := by
  have hroot : fsPath w.statePath ≠ [] := by
    rw [hw.state]
    exact spot_ne_nil w _
  have hstep : ∀ e, (updaterDevice w.world).step .removeState e s = ((), stepRemoveState e s) := fun _ => rfl
  have hfile : t.1.isDir (fsPath w.statePath) = false := by
    rw [hw.state]
    exact h.files _ List.mem_cons_self
  show Safe _ _ _ (updaterStateRemove w.statePath) t
  unfold updaterStateRemove
  by_cases hthere : (t.1.get (fsPath w.statePath)).isSome
  · have hbelow : ∀ q, q ≠ [] → t.1.get (fsPath w.statePath ++ q) = none := by
      intro q hq
      cases hget : t.1.get (fsPath w.statePath ++ q) with
      | none => rfl
      | some n =>
          rw [t.2.tree.isDir_of_below hq hget] at hfile
          cases hfile
    have hpart : ∀ t' : Volume, Gone (StrictlyBelow (fsPath w.statePath)) t.1 t'.1 → w.Views tame origin t' s := by
      intro t' hgone
      have hsame : ∀ q, t'.1.get q = t.1.get q := by
        intro q
        by_cases hq : StrictlyBelow (fsPath w.statePath) q
        · obtain ⟨⟨r, rfl⟩, hne⟩ := hq
          have hnone := hbelow r fun hr => hne (by rw [hr, List.append_nil])
          rw [hnone]
          exact hgone.get_eq_none hnone
        · exact hgone.get_eq hq
      exact h.change [] (List.forall_mem_nil _) (fun q _ => hsame q) (fun p => Or.inl ⟨List.not_mem_nil, rfl⟩)
        (Or.inl ⟨List.not_mem_nil, rfl⟩) fun x _ => Or.inl List.not_mem_nil
    have hwhole : ∀ t' : Volume, t'.1 = t.1.removeUnder (fsPath w.statePath) →
        w.Views tame origin t' { s with state := none } := by
      intro t' ht'
      rw [hw.state] at ht'
      have hget : ∀ q, t'.1.get q = if w.spot stateSuffix <+: q then none else t.1.get q := fun q => by
        rw [ht', FileTree.get_removeUnder]
      have hnone : t'.1.get (w.spot stateSuffix) = none := by
        rw [hget, if_pos (List.prefix_refl _)]
      refine h.changeState (fun q hq => by rw [hget, if_neg hq]) ?_ ?_
      · unfold dataAt FileTree.fileAt
        rw [hnone]
        rfl
      · rw [Bool.eq_false_iff, ne_eq, FileTree.isDir_iff, hnone]
        exact fun hdir => hdir.elim (spot_ne_nil w _) (nomatch ·)
    refine Safe.bind (((updateRemoveTree_removes hroot hthere).crash_mono ?_).mono ?_)
    · rintro t' (ht' | ht')
      · exact Or.inl (hpart t' ht')
      · exact Or.inr ⟨.ok, hwhole t' ht'⟩
    · rintro status t' (⟨rfl, ht'⟩ | ⟨rfl, hgone, hno⟩)
      · exact ⟨.ok, fun _ => rfl, rfl, hwhole t' ht'⟩
      · refine ⟨.fail, fun hstrict => absurd ⟨hstrict, fun q hq => ?_⟩ hno, rfl, hpart t' hgone⟩
        by_cases hne : q = []
        · rw [hne]
          exact hshort hstrict
        · rw [hbelow q hne] at hq
          cases hq
  · have hnone : t.1.get (fsPath w.statePath) = none := by simpa using hthere
    refine Safe.bind ((updateRemoveTree_missing hroot hnone (Or.inl h)).mono ?_)
    rintro status t' ⟨rfl, rfl⟩
    have hstate : s.state = none := by
      rw [h.state, ← hw.state]
      unfold dataAt FileTree.fileAt
      rw [hnone]
      rfl
    have hsame : stepRemoveState .ok s = s := by
      show { s with state := none } = s
      rw [← hstate]
    refine ⟨.ok, fun _ => rfl, rfl, ?_⟩
    rw [hstep, hsame]
    exact h

/-! ## Moves -/

theorem stepRenamePath_false (src dst : Bytes) (t : Fs) : stepRenamePath src dst false t = (false, t) := by
  unfold stepRenamePath stepRename
  split
  · rfl
  · split <;> rfl

/-- A call that is made takes effect, or nothing changes. -/
theorem stepRenamePath_cases (src dst : Bytes) (ok : Bool) (t : Fs) :
    stepRenamePath src dst ok t = (false, t) ∧ (ok = true → stepRenamePath src dst true t = (false, t))
      ∨ stepRenamePath src dst true t = (true, (stepRenamePath src dst ok t).2)
        ∧ (stepRenamePath src dst ok t).1 = true := by
  have hfailed : (stepRenamePath src dst true t).1 = false → stepRenamePath src dst true t = (false, t) := by
    unfold stepRenamePath stepRename
    split
    · split
      · exact fun h => by cases h
      · exact fun _ => rfl
    · split
      · exact fun _ => rfl
      split
      · exact fun h => by cases h
      · exact fun _ => rfl
  cases ok with
  | false => exact Or.inl ⟨stepRenamePath_false src dst t, fun h => by cases h⟩
  | true =>
      cases hanswer : (stepRenamePath src dst true t).1 with
      | false => exact Or.inl ⟨hfailed hanswer, fun _ => hfailed hanswer⟩
      | true => exact Or.inr ⟨Prod.ext hanswer rfl, rfl⟩

/-- **The attempts of a move**: one of them takes effect, or nothing has changed. -/
theorem moveAttempts_safe {I : Volume → Prop} {Q : UpdateStatus → Volume → Prop} {src dst : Bytes} (n : Nat) (hI : I t)
    (hmoved : ∀ t' : Volume, stepRenamePath src dst true t.1 = (true, t'.1) → I t' ∧ Q .ok t')
    (hfailed : (strict → n = 0 ∨ stepRenamePath src dst true t.1 = (false, t.1)) → Q .error t) :
    Safe (device newMode) (crashContract (device newMode) (Undisturbed strict) I) Q (moveAttempts src dst n) t := by
  have hall : ∀ e, I ((device newMode).step (.rename src dst) e t).2 := by
    intro e
    rcases stepRenamePath_cases src dst (e (.rename src dst)) t.1 with ⟨heq, _⟩ | ⟨heq, _⟩
    · have hsame : ((device newMode).step (.rename src dst) e t).2 = t := Subtype.ext (congrArg Prod.snd heq)
      rw [hsame]
      exact hI
    · exact (hmoved ((device newMode).step (.rename src dst) e t).2 heq).1
  induction n with
  | zero => exact hfailed fun _ => Or.inl rfl
  | succ n ih =>
      intro e he
      refine ⟨hall, hall e, ?_⟩
      rcases stepRenamePath_cases src dst (e (.rename src dst)) t.1 with ⟨heq, htrue⟩ | ⟨heq, hanswer⟩
      · have hsame : ((device newMode).step (.rename src dst) e t).2 = t := Subtype.ext (congrArg Prod.snd heq)
        have hanswer : ((device newMode).step (.rename src dst) e t).1 = false := congrArg Prod.fst heq
        rw [hsame, hanswer]
        -- an attempt that nothing disturbs would fail again
        exact ih fun _ => hfailed fun hstrict => Or.inr (htrue (he hstrict (.rename src dst)))
      · have hanswer : ((device newMode).step (.rename src dst) e t).1 = true := hanswer
        rw [hanswer]
        exact (hmoved ((device newMode).step (.rename src dst) e t).2 heq).2

theorem placePath_ne_nil (hw : w.Plain) (p : Place) : w.placePath p ≠ [] := by
  rw [placePath_eq]
  exact List.append_ne_nil_of_left_ne_nil hw.ok.nonempty _

/-- A directory that nothing lies in shows the empty tree. -/
theorem shows_empty {p : List Bytes} {u : Tree} {t : Volume} (h : Shows t.1 p (some u)) (hempty : t.1.children p = []) :
    u = [] := by
  refine tree_eq_nil fun q => ?_
  rw [h.2, get_viewAt]
  split
  · rfl
  · next hshown =>
    obtain ⟨x, q, rfl⟩ := List.exists_cons_of_ne_nil hshown
    have hx : t.1.get (p ++ [x]) = none := Copy.get_eq_none_of_children (by rw [hempty]; rfl) x
    have hchild : p ++ [x] ≠ [] := List.append_ne_nil_of_right_ne_nil _ (List.cons_ne_nil _ _)
    have hq : t.1.get (p ++ x :: q) = none :=
      t.2.tree.get_eq_none_below hx hchild ((List.prefix_append_right_inj p).mpr (List.prefix_append [x] q))
    rw [shownAt, hq]
    rfl

/-- A move that takes effect shows as one. -/
theorem moveUnder_shows {src dst : Place} {u : Tree} (h : w.Views tame origin t s)
    (hsrc : s.get src = some u) (hne : src ≠ dst) {t' : Volume}
    (ht' : t'.1 = t.1.moveUnder (w.spot (endingOf src)) (w.spot (endingOf dst))) :
    w.Views tame origin t' ((s.set src none).set dst (some u)) := by
  have happart : endingOf src ≠ endingOf dst := fun heq => hne (endingOf_inj heq)
  have hget : ∀ q, t'.1.get q = if w.spot (endingOf dst) <+: q then
      t.1.get (w.spot (endingOf src) ++ q.drop (w.spot (endingOf dst)).length)
        else if w.spot (endingOf src) <+: q then none else t.1.get q := by
    intro q
    rw [ht', FileTree.get_moveUnder]
  have hdst : ∀ q, t'.1.get (w.spot (endingOf dst) ++ q) = t.1.get (w.spot (endingOf src) ++ q) := by
    intro q
    rw [hget, if_pos (List.prefix_append _ _), List.drop_left]
  have hgone : ∀ q, w.spot (endingOf src) <+: q → t'.1.get q = none := by
    intro q hq
    rw [hget, if_neg (spot_apart (Ne.symm happart) hq), if_pos hq]
  have hnames : ∀ p, p ≠ src → p ≠ dst → endingOf p ∉ [endingOf src, endingOf dst] := by
    intro p hps hpd hmem
    rcases List.mem_cons.mp hmem with heq | hmem
    · exact hps (endingOf_inj heq)
    · exact hpd (endingOf_inj (List.mem_singleton.mp hmem))
  have hstate : ∀ x ∈ [stateSuffix, partSuffix], x ∉ [endingOf src, endingOf dst] := by
    intro x hx hmem
    have hother : ∀ p, x ≠ endingOf p := by
      intro p heq
      rcases List.mem_cons.mp hx with rfl | hx
      · exact (endingOf_ne p).1 heq.symm
      · exact (endingOf_ne p).2 (heq.symm.trans (List.mem_singleton.mp hx))
    rcases List.mem_cons.mp hmem with heq | hmem
    · exact hother src heq
    · exact hother dst (List.mem_singleton.mp hmem)
  refine h.change [endingOf src, endingOf dst] (fun x hx => ?_) (fun q hq => ?_) (fun p => ?_)
    (Or.inl ⟨hstate _ List.mem_cons_self, ?_⟩) fun x hx => Or.inl (hstate x hx)
  · rcases List.mem_cons.mp hx with rfl | hx
    · exact endingOf_mem src
    · rw [List.mem_singleton.mp hx]
      exact endingOf_mem dst
  · rw [hget, if_neg (hq _ (by simp)), if_neg (hq _ (by simp))]
  · by_cases hpd : p = dst
    · subst hpd
      right
      have hself : ((s.set src none).set p (some u)).get p = some u := by
        cases p <;> rfl
      rw [hself]
      refine ⟨(hsrc ▸ h.place src).moved hdst, fun htame q hq => ?_⟩
      rw [hdst] at hq
      exact h.fits htame src q hq
    by_cases hps : p = src
    · subst hps
      right
      have hself : ((s.set p none).set dst (some u)).get p = none := by
        cases p <;> cases dst <;> first | rfl | exact absurd rfl hpd
      rw [hself]
      refine ⟨hgone _ (List.prefix_refl _), fun _ q hq => ?_⟩
      rw [hgone _ (List.prefix_append _ _)] at hq
      cases hq
    · refine Or.inl ⟨hnames p hps hpd, ?_⟩
      cases p <;> cases src <;> cases dst <;>
        first | rfl | exact absurd rfl hps | exact absurd rfl hpd
  · cases src <;> cases dst <;> rfl

theorem move_carried (hw : w.Plain) (src dst : Place) (hfree : strict → s.get dst = none)
    (h : w.Views tame origin t s) : CarriesOut newMode w tame strict origin (.move src dst) t s := by
  have hstep : ∀ e, (updaterDevice w.world).step (.move src dst) e s = stepMove w.world src dst e s := fun _ => rfl
  have hnested : w.world.nested = false := by
    rw [World.nested, beq_eq_false_iff_ne]
    exact hw.last
  have hrename : ∀ ok, stepRenamePath (w.placePath src) (w.placePath dst) ok t.1
      = if t.1.get (w.spot (endingOf src)) = some .dir then
          if ok && canMoveDir t.1 (w.spot (endingOf src)) (w.spot (endingOf dst)) then
            (true, t.1.moveUnder (w.spot (endingOf src)) (w.spot (endingOf dst)))
          else (false, t.1)
        else stepRename (w.placePath src) (w.placePath dst) ⟨ok, fun _ => false, none⟩ t.1 := by
    intro ok
    unfold stepRenamePath
    rw [hw.place, hw.place]
  show Safe _ _ _ (updateMovePath (w.placePath src) (w.placePath dst)) t
  unfold updateMovePath
  rw [if_neg (by simp [placePath_ne_nil hw])]
  have hshows := h.place src
  cases hsrc : s.get src with
  | none =>
      rw [hsrc] at hshows
      have hnone : t.1.get (w.spot (endingOf src)) = none := hshows
      have hfails : ∀ ok, stepRenamePath (w.placePath src) (w.placePath dst) ok t.1 = (false, t.1) := by
        intro ok
        rw [hrename, hnone, if_neg (by simp)]
        unfold stepRename FileTree.fileAt
        rw [hw.place, hnone]
      refine moveAttempts_safe 20 (Or.inl h) (fun t' ht' => ?_) fun _ => ⟨.ok, fun _ => rfl, ?_⟩
      · rw [hfails] at ht'
        cases ht'
      · have herror : stepMove w.world src dst .ok s = (.error, s) := by
          unfold stepMove
          rw [hsrc]
        rw [hstep, herror]
        exact ⟨rfl, h⟩
  | some u =>
      rw [hsrc] at hshows
      have hdir : t.1.get (w.spot (endingOf src)) = some .dir := hshows.1
      have htrue : stepRenamePath (w.placePath src) (w.placePath dst) true t.1
          = if canMoveDir t.1 (w.spot (endingOf src)) (w.spot (endingOf dst)) then
              (true, t.1.moveUnder (w.spot (endingOf src)) (w.spot (endingOf dst)))
            else (false, t.1) := by
        rw [hrename, if_pos hdir, Bool.true_and]
      cases hcan : canMoveDir t.1 (w.spot (endingOf src)) (w.spot (endingOf dst)) with
      | true =>
          obtain ⟨hapart, _, _, hplace⟩ := canMoveDir_iff.mp hcan
          have hne : src ≠ dst := by
            rintro rfl
            exact hapart (List.prefix_refl _)
          have hdst : s.get dst = none ∨ s.get dst = some [] := by
            have hshown := h.place dst
            cases hv : s.get dst with
            | none => exact Or.inl rfl
            | some v =>
                rw [hv] at hshown
                rcases hplace with hnone | ⟨_, hempty⟩
                · rw [hshown.1] at hnone
                  cases hnone
                · rw [shows_empty hshown hempty]
                  exact Or.inr rfl
          have hmoved : stepMove w.world src dst .ok s = (.ok, (s.set src none).set dst (some u)) := by
            unfold stepMove
            simp only [hsrc]
            rw [if_pos ⟨hdst, hnested⟩]
          refine moveAttempts_safe 20 (Or.inl h) (fun t' ht' => ?_) fun hfailed => ?_
          · rw [htrue, if_pos hcan] at ht'
            have hviews := moveUnder_shows h hsrc hne (Prod.mk.inj ht').2.symm
            refine ⟨Or.inr ⟨.ok, ?_⟩, .ok, fun _ => rfl, ?_⟩
            · rw [hstep, hmoved]
              exact hviews
            · rw [hstep, hmoved]
              exact ⟨rfl, hviews⟩
          · refine ⟨.fail, fun hstrict => ?_, rfl, h⟩
            rcases hfailed hstrict with hzero | hfailed
            · cases hzero
            · rw [htrue, if_pos hcan] at hfailed
              cases hfailed
      | false =>
          refine moveAttempts_safe 20 (Or.inl h) (fun t' ht' => ?_) fun _ => ⟨.fail, fun hstrict => ?_, rfl, h⟩
          · rw [htrue, if_neg (by rw [hcan]; exact Bool.false_ne_true)] at ht'
            cases ht'
          · -- the place is free, so that nothing is in the way
            have hfree := hfree hstrict
            have hshown := h.place dst
            rw [hfree] at hshown
            have hapart : ¬ w.spot (endingOf src) <+: w.spot (endingOf dst) := by
              refine spot_apart (fun heq => ?_) (List.prefix_refl _)
              rw [endingOf_inj heq, hfree] at hsrc
              cases hsrc
            have hcan' : canMoveDir t.1 (w.spot (endingOf src)) (w.spot (endingOf dst)) = true :=
              canMoveDir_iff.mpr ⟨hapart, spot_ne_nil w _, by rw [spot_dropLast]; exact h.parent, Or.inl hshown⟩
            rw [hcan'] at hcan
            cases hcan

/-! ## Saving the state -/

theorem fileAt_set_file {t : Fs} {p : List Bytes} {f : FileNode} : FileTree.fileAt (t.set p (.file f)) p = some f := by
  unfold FileTree.fileAt
  rw [FileTree.get_set, if_pos rfl]

theorem fileAt_storeFile {t : Fs} {p : List Bytes} {f : FileNode} (hf : t.fileAt p = some f) (data : Bytes) :
    (storeFile t p data).fileAt p = some { f with data } := by
  unfold storeFile
  rw [hf]
  exact fileAt_set_file

/-- What happens to the file that a state is prepared in is not shown. -/
theorem Views.ofPart {t' : Volume} (h : w.Views tame origin t s)
    (hframe : ∀ q, q ≠ w.spot partSuffix → t'.1.get q = t.1.get q) {f : FileNode}
    (hfile : t'.1.fileAt (w.spot partSuffix) = some f) : w.Views tame origin t' s := by
  have hviews : w.Views tame origin t' { s with part := s.part } :=
    h.changePart (fun q hq => hframe q fun heq => hq (heq ▸ List.prefix_refl _))
      (FileTree.isDir_eq_false_of_fileAt (spot_ne_nil w _) hfile)
  exact hviews

/-- The file that a state is prepared in is taken away, or stays. -/
theorem dropPart_carried (hw : w.Plain) {I : Volume → Prop} {Q : UpdateStatus → Volume → Prop}
    (hI : ∀ t', w.Views tame origin t' s → I t') (hQ : ∀ t', w.Views tame origin t' s → Q .error t')
    (h : w.Views tame origin t s) :
    Safe (device newMode) (crashContract (device newMode) (Undisturbed strict) I) Q
      (dropPart (w.statePath ++ ascii ".part")) t := by
  have hall : ∀ e, w.Views tame origin ((device newMode).step (.io (.remove (w.statePath ++ ascii ".part"))) e t).2 s := by
    intro e
    have hpart : t.1.isDir (w.spot partSuffix) = false := h.files _ (by simp)
    rcases stepRemoveOne_removes (w.statePath ++ ascii ".part") (e (.io (.remove (w.statePath ++ ascii ".part"))))
      t.2.tree with heq | heq
    · have hsame : ((device newMode).step (.io (.remove (w.statePath ++ ascii ".part"))) e t).2 = t :=
        Subtype.ext (congrArg Prod.snd heq)
      rw [hsame]
      exact h
    · have htree : ((device newMode).step (.io (.remove (w.statePath ++ ascii ".part"))) e t).2.1
          = t.1.removeUnder (w.spot partSuffix) := by
        rw [← hw.part]
        exact congrArg Prod.snd heq
      have hget : ∀ q, ((device newMode).step (.io (.remove (w.statePath ++ ascii ".part"))) e t).2.1.get q
          = if w.spot partSuffix <+: q then none else t.1.get q := by
        intro q
        rw [htree, FileTree.get_removeUnder]
      have hviews : w.Views tame origin ((device newMode).step (.io (.remove (w.statePath ++ ascii ".part"))) e t).2
          { s with part := s.part } := by
        refine h.changePart (fun q hq => by rw [hget, if_neg hq]) ?_
        rw [Bool.eq_false_iff, ne_eq, FileTree.isDir_iff, hget, if_pos (List.prefix_refl _)]
        exact fun hdir => hdir.elim (spot_ne_nil w _) (nomatch ·)
      exact hviews
  intro e he
  exact ⟨fun e' => hI _ (hall e'), hI _ (hall e), hQ _ (hall e)⟩

/-- The prepared file, moved over the state file, shows as the new state. -/
theorem movedPart_shows {t' : Volume} {f : FileNode} (h : w.Views tame origin t s)
    (ht' : t'.1 = (t.1.removeUnder (w.spot partSuffix)).set (w.spot stateSuffix) (.file f)) :
    w.Views tame origin t' { s with state := some f.data, part := none } := by
  have hne : w.spot partSuffix ≠ w.spot stateSuffix := by
    intro heq
    have hapart : ¬ w.spot partSuffix <+: w.spot stateSuffix :=
      spot_apart (by decide +kernel) (List.prefix_refl _)
    exact hapart (heq ▸ List.prefix_refl _)
  have hget : ∀ q, t'.1.get q = if q = w.spot stateSuffix then some (.file f)
      else if w.spot partSuffix <+: q then none else t.1.get q := by
    intro q
    rw [ht', FileTree.get_set, FileTree.get_removeUnder]
  have hfile : t'.1.fileAt (w.spot stateSuffix) = some f := by
    rw [ht']
    exact fileAt_set_file
  refine h.change [stateSuffix, partSuffix] (fun x hx => ?_) (fun q hq => ?_) (fun p => Or.inl ⟨?_, ?_⟩) (Or.inr ?_)
    fun x hx => Or.inr ?_
  · rcases List.mem_cons.mp hx with rfl | hx
    · decide +kernel
    · rw [List.mem_singleton.mp hx]
      decide +kernel
  · have hstate : q ≠ w.spot stateSuffix := fun heq => hq stateSuffix (by simp) (heq ▸ List.prefix_refl _)
    rw [hget, if_neg hstate, if_neg (hq partSuffix (by simp))]
  · simp [endingOf_ne p]
  · cases p <;> rfl
  · unfold dataAt
    rw [hfile]
    rfl
  · rcases List.mem_cons.mp hx with rfl | hx
    · exact FileTree.isDir_eq_false_of_fileAt (spot_ne_nil w _) hfile
    · rw [List.mem_singleton.mp hx, Bool.eq_false_iff, ne_eq, FileTree.isDir_iff, hget, if_neg hne,
        if_pos (List.prefix_refl _)]
      exact fun hdir => hdir.elim (spot_ne_nil w _) (nomatch ·)

/-- Nothing is in the way of the prepared file. -/
theorem renamePart (hw : w.Plain) {f : FileNode} (h : w.Views tame origin t s)
    (hf : t.1.fileAt (w.spot partSuffix) = some f) :
    stepRenamePath (w.statePath ++ ascii ".part") w.statePath true t.1
      = (true, (t.1.removeUnder (w.spot partSuffix)).set (w.spot stateSuffix) (.file f)) := by
  have hopen : canOpen t.1 (w.spot stateSuffix) = true := by
    refine canOpen_iff.mpr ⟨h.files _ (by simp), ?_⟩
    rw [spot_dropLast]
    exact h.parent
  unfold stepRenamePath stepRename
  rw [hw.part, hw.state, FileTree.get_of_fileAt hf, if_neg (by simp), hf]
  simp [hopen]

/-- A state is being prepared: the disk shows what is there, and `data` is in the file that it is written to, which the
    disk does not show. -/
def Preparing (w : Setting) (tame : Prop) (origin : Fs) (s : Disk) (data : Bytes) (t : Volume) : Prop :=
  w.Views tame origin t s ∧ ∃ f, t.1.fileAt (w.spot partSuffix) = some f ∧ f.data = data

theorem Preparing.store {data data' : Bytes} {t' : Volume} (h : w.Preparing tame origin s data t)
    (ht' : t'.1 = storeFile t.1 (w.spot partSuffix) data') : w.Preparing tame origin s data' t' := by
  obtain ⟨hviews, f, hf, _⟩ := h
  have hfile : t'.1.fileAt (w.spot partSuffix) = some { f with data := data' } := by
    rw [ht']
    exact fileAt_storeFile hf data'
  refine ⟨hviews.ofPart (fun q hq => ?_) hfile, _, hfile, rfl⟩
  rw [ht']
  exact storeFile_frame data' hq

/-- Nothing is in the way of the file that a state is prepared in. -/
theorem openPart (newMode : Nat) (hw : w.Plain) (h : w.Views tame origin t s) (e : Outcome) :
    (device newMode).step (.io (.fopenWrite (w.statePath ++ ascii ".part"))) e t = (false, t)
        ∧ e (.io (.fopenWrite (w.statePath ++ ascii ".part"))) = false
      ∨ ((device newMode).step (.io (.fopenWrite (w.statePath ++ ascii ".part"))) e t).1 = true
        ∧ w.Preparing tame origin s []
          ((device newMode).step (.io (.fopenWrite (w.statePath ++ ascii ".part"))) e t).2 := by
  have hwritable : canOpen t.1 (w.spot partSuffix) = true := by
    refine canOpen_iff.mpr ⟨h.files _ (by simp), ?_⟩
    rw [spot_dropLast]
    exact h.parent
  have hopened : stepTree newMode (.io (.fopenWrite (w.statePath ++ ascii ".part")))
      (e (.io (.fopenWrite (w.statePath ++ ascii ".part")))) t.1
        = if e (.io (.fopenWrite (w.statePath ++ ascii ".part"))) = true then
            (true, writeFile newMode t.1 (w.spot partSuffix) [])
          else (false, t.1) := by
    show Copy.stepFopenWrite newMode _ _ t.1 = _
    unfold Copy.stepFopenWrite
    rw [hw.part, hwritable, Bool.and_true]
  by_cases hturn : e (.io (.fopenWrite (w.statePath ++ ascii ".part"))) = true
  · rw [if_pos hturn] at hopened
    obtain ⟨hanswer, htree⟩ := device_step hopened
    have hfile : ((device newMode).step (.io (.fopenWrite (w.statePath ++ ascii ".part"))) e t).2.1.fileAt
        (w.spot partSuffix) = some ⟨[], ((t.1.fileAt (w.spot partSuffix)).map FileNode.mode).getD newMode⟩ := by
      rw [htree]
      exact fileAt_set_file
    refine Or.inr ⟨hanswer, h.ofPart (fun q hq => ?_) hfile, _, hfile, rfl⟩
    rw [htree]
    exact writeFile_frame hq
  · rw [if_neg hturn] at hopened
    exact Or.inl ⟨device_step_same hopened, Bool.eq_false_iff.mpr hturn⟩

/-- What is written comes to the file at some time, or a part of it. -/
theorem writePart (newMode : Nat) (hw : w.Plain) {data : Bytes} (h : w.Preparing tame origin s data t) (text : Bytes) (e : Outcome) :
    ∃ data', w.Preparing tame origin s data'
      ((device newMode).step (.io (.fwrite (w.statePath ++ ascii ".part") text)) e t).2 := by
  have hstored : ((device newMode).step (.io (.fwrite (w.statePath ++ ascii ".part") text)) e t).2.1
      = storeFile t.1 (w.spot partSuffix) (e (.io (.fwrite (w.statePath ++ ascii ".part") text))).2 := by
    rw [← hw.part]
    rfl
  exact ⟨_, h.store hstored⟩

/-- A file that is closed well has all that was written. -/
theorem closePart (newMode : Nat) (hw : w.Plain) {data : Bytes} (h : w.Preparing tame origin s data t) (text : Bytes) (e : Outcome) :
    ((device newMode).step (.io (.fclose (w.statePath ++ ascii ".part") (some text))) e t).1 = false
        ∧ e (.io (.fclose (w.statePath ++ ascii ".part") (some text))) ≠ none
        ∧ w.Views tame origin ((device newMode).step (.io (.fclose (w.statePath ++ ascii ".part") (some text))) e t).2 s
      ∨ ((device newMode).step (.io (.fclose (w.statePath ++ ascii ".part") (some text))) e t).1 = true
        ∧ w.Preparing tame origin s text
          ((device newMode).step (.io (.fclose (w.statePath ++ ascii ".part") (some text))) e t).2 := by
  cases hturn : e (.io (.fclose (w.statePath ++ ascii ".part") (some text))) with
  | none =>
      have hclosed : stepTree newMode (.io (.fclose (w.statePath ++ ascii ".part") (some text)))
          (e (.io (.fclose (w.statePath ++ ascii ".part") (some text)))) t.1
            = (true, storeFile t.1 (w.spot partSuffix) text) := by
        rw [hturn, ← hw.part]
        rfl
      exact Or.inr ⟨(device_step hclosed).1, h.store (device_step hclosed).2⟩
  | some part =>
      have hclosed : stepTree newMode (.io (.fclose (w.statePath ++ ascii ".part") (some text)))
          (e (.io (.fclose (w.statePath ++ ascii ".part") (some text)))) t.1
            = (false, storeFile t.1 (w.spot partSuffix) part) := by
        rw [hturn, ← hw.part]
        rfl
      exact Or.inl ⟨(device_step hclosed).1, Option.some_ne_none part, (h.store (device_step hclosed).2).1⟩

/-- The prepared file takes the place of the state file, or is taken away. -/
theorem movePart_carried (hw : w.Plain) {I : Volume → Prop} {Q : UpdateStatus → Volume → Prop} {text : Bytes}
    (hkept : ∀ t', w.Views tame origin t' s → I t')
    (hmoved : ∀ t', w.Views tame origin t' { s with state := some text, part := none } → I t' ∧ Q .ok t')
    (hgivesUp : ¬ strict → ∀ t', w.Views tame origin t' s → Q .error t') (h : w.Preparing tame origin s text t) :
    Safe (device newMode) (crashContract (device newMode) (Undisturbed strict) I) Q (do
      let moved ← updateMovePath (w.statePath ++ ascii ".part") w.statePath
      if moved = .ok then pure .ok else dropPart (w.statePath ++ ascii ".part")) t := by
  obtain ⟨hviews, f, hf, rfl⟩ := h
  have hmove : Safe (device newMode) (crashContract (device newMode) (Undisturbed strict) I)
      (fun status t' => status = .ok ∧ Q .ok t' ∨ status = .error ∧ ¬ strict ∧ w.Views tame origin t' s)
      (updateMovePath (w.statePath ++ ascii ".part") w.statePath) t := by
    have hne : w.statePath ≠ [] := List.append_ne_nil_of_left_ne_nil hw.ok.nonempty _
    unfold updateMovePath
    rw [if_neg (by simp [hne])]
    refine moveAttempts_safe 20 (hkept t hviews) (fun t' ht' => ?_) fun hfailed => Or.inr ⟨rfl, fun hstrict => ?_, hviews⟩
    · rw [renamePart hw hviews hf] at ht'
      have hall := hmoved t' (movedPart_shows hviews (Prod.mk.inj ht').2.symm)
      exact ⟨hall.1, Or.inl ⟨rfl, hall.2⟩⟩
    · rcases hfailed hstrict with hzero | hfailed
      · cases hzero
      · rw [renamePart hw hviews hf] at hfailed
        cases hfailed
  refine Safe.bind (hmove.mono ?_)
  rintro status t' (⟨rfl, hdone⟩ | ⟨rfl, hstrict, hviews'⟩)
  · exact hdone
  · exact dropPart_carried hw hkept (hgivesUp hstrict) hviews'

/-- The outcomes of a save that come into question. -/
theorem stepSaveState_outcomes (hbuf : snprintf (pathMax + 32) (w.statePath ++ ascii ".part") = some
    (w.statePath ++ ascii ".part")) (phase : Phase) (zip : Bytes) (s : Disk) :
    stepSaveState w.world phase zip .fail s = (.error, s)
      ∧ (∃ part, stepSaveState w.world phase zip (.halfway []) s = (.error, { s with part := part }))
      ∧ stepSaveState w.world phase zip .ok s = (.ok, { s with
          state := some (stateText phase.text w.installDir (w.placePath .staging) (w.placePath .backup) zip)
          part := none }) := by
  have hpath : w.world.installDir ++ stateSuffix = w.statePath := rfl
  unfold stepSaveState LibUpdate.updaterStateSaveAtomic
  rw [hpath, hbuf]
  exact ⟨rfl, ⟨_, rfl⟩, rfl⟩

theorem saveState_carried (hw : w.Plain) (phase : Phase) (zip : Bytes) (h : w.Views tame origin t s) :
    CarriesOut newMode w tame strict origin (.saveState phase zip) t s := by
  have hstep : ∀ e, (updaterDevice w.world).step (.saveState phase zip) e s = stepSaveState w.world phase zip e s :=
    fun _ => rfl
  show Safe _ _ _ (updaterStateSaveAtomic w.statePath phase.text w.installDir (w.placePath .staging)
    (w.placePath .backup) zip) t
  unfold updaterStateSaveAtomic
  cases hbuf : snprintf (pathMax + 32) (w.statePath ++ ascii ".part") with
  | none =>
      have herror : stepSaveState w.world phase zip .ok s = (.error, s) := by
        unfold stepSaveState LibUpdate.updaterStateSaveAtomic
        rw [show w.world.installDir ++ stateSuffix = w.statePath from rfl, hbuf]
        rfl
      refine ⟨.ok, fun _ => rfl, ?_⟩
      rw [hstep, herror]
      exact ⟨rfl, h⟩
  | some tmp =>
      obtain rfl := (snprintf_eq_some.mp hbuf).2
      obtain ⟨hopens, ⟨part, hhalf⟩, hsaved⟩ := stepSaveState_outcomes hbuf phase zip s
      have hkept : ∀ t', w.Views tame origin t' s →
          Between (updaterDevice w.world) (w.Views tame origin) (.saveState phase zip) s t' := fun _ => Or.inl
      have hgivesUp : ¬ strict → ∀ t', w.Views tame origin t' s →
          w.Carried tame strict origin (.saveState phase zip) s .error t' := by
        intro hstrict t' hviews
        have hviews' : w.Views tame origin t' { s with part := part } :=
          hviews.changePart (fun _ _ => rfl) (hviews.files _ (by simp))
        refine ⟨.halfway [], fun hs => absurd hs hstrict, ?_⟩
        rw [hstep, hhalf]
        exact ⟨rfl, hviews'⟩
      -- the file is made
      refine safe_call (fun e => ?_) fun e₁ he₁ => ?_
      · rcases openPart newMode hw h e with ⟨heq, _⟩ | ⟨_, hprep⟩
        · rw [heq]
          exact hkept t h
        · exact hkept _ hprep.1
      rcases openPart newMode hw h e₁ with ⟨heq, hturn⟩ | ⟨hanswer, hprep₁⟩
      · rw [heq]
        refine ⟨.fail, fun hstrict => ?_, ?_⟩
        · have hfine : e₁ (.io (.fopenWrite (w.statePath ++ ascii ".part"))) = true :=
            he₁ hstrict (.io (.fopenWrite (w.statePath ++ ascii ".part")))
          rw [hturn] at hfine
          cases hfine
        · rw [hstep, hopens]
          exact ⟨rfl, h⟩
      rw [hanswer]
      -- what is written is in the file when it is closed
      refine safe_call (fun e => ?_) fun e₂ _ => ?_
      · obtain ⟨_, hprep⟩ := writePart newMode hw hprep₁
          (stateText phase.text w.installDir (w.placePath .staging) (w.placePath .backup) zip) e
        exact hkept _ hprep.1
      obtain ⟨_, hprep₂⟩ := writePart newMode hw hprep₁
          (stateText phase.text w.installDir (w.placePath .staging) (w.placePath .backup) zip) e₂
      refine safe_call (fun e => ?_) fun e₃ he₃ => ?_
      · rcases closePart newMode hw hprep₂ _ e with ⟨_, _, hviews⟩ | ⟨_, hprep⟩
        · exact hkept _ hviews
        · exact hkept _ hprep.1
      rcases closePart newMode hw hprep₂ _ e₃ with ⟨hanswer, hturn, hviews⟩ | ⟨hanswer, hprep₃⟩
      · rw [hanswer]
        exact dropPart_carried hw hkept (hgivesUp fun hstrict => hturn (he₃ hstrict (.io (.fclose _ _)))) hviews
      rw [hanswer]
      exact movePart_carried hw hkept (fun t' ht' => ⟨Or.inr ⟨.ok, by rw [hstep, hsaved]; exact ht'⟩, .ok, fun _ => rfl,
        by rw [hstep, hsaved]; exact ⟨rfl, ht'⟩⟩) hgivesUp hprep₃

/-! ## Extraction -/

/-- The names of the entries of a package fit into the buffers under the staging directory, also with the ending of the
    temporary file. -/
def EntriesFit (w : Setting) (zip : Bytes) : Prop :=
  ∀ entries, w.archive zip = some entries → ∀ e ∈ entries,
    (fullPathOf (w.placePath .staging) e ++ extractingSuffix).length < pathMax

/-- The step makes no name that does not fit. Only an extraction makes names, and what it makes has to be removed and
    moved by later steps. -/
def Fitting (w : Setting) (o : LibUpdate.Op) : Prop := ∀ zip, o = .extract zip → w.EntriesFit zip

/-- What is asked of a step for its calls to succeed where nothing is disturbed. `main` calls its steps so
    (`Right`). -/
def CalledRight (w : Setting) : LibUpdate.Op → Disk → Prop
  | .extract zip, s => s.staging = none ∧ (extractDest w.cwd zip (w.placePath .staging)).isSome
      ∧ ∃ entries, w.archive zip = some entries ∧ CleanArchive (w.placePath .staging) entries
  | .move _ dst, s => s.get dst = none
  | _, _ => True

/-- The staging directory is its own absolute form. -/
theorem extractDest_staging (hw : w.Plain) {zip dest : Bytes}
    (h : extractDest w.cwd zip (w.placePath .staging) = some dest) : dest = w.placePath .staging := by
  have habs : pathIsAbsolute (w.placePath .staging) = true := by
    have hhead := hw.absolute
    obtain ⟨c, rest, hc⟩ := List.exists_cons_of_ne_nil hw.ok.nonempty
    show pathIsAbsolute (w.installDir ++ stagingSuffix) = true
    rw [hc] at hhead ⊢
    exact hhead
  unfold extractDest at h
  split at h; · cases h
  split at h; · cases h
  split at h
  · next zipAbs destAbs _ hdest =>
    split at h
    · cases h
    cases h
    unfold updatePathMakeAbsolute at hdest
    split at hdest; · cases hdest
    split at hdest; · cases hdest
    exact (snprintf_eq_some.mp hdest).2
  · cases h

/-- Outside the staging directory nothing is made: the directory that it lies in is there. -/
theorem Unpacking.frame (hw : w.Plain) (h : w.Views tame origin t s) {archive : Option (List Entry)} {t' : Fs}
    (hun : Unpacking (w.placePath .staging) archive t.1 t') {q : List Bytes}
    (hq : ¬ w.spot stagingSuffix <+: q) : t'.get q = t.1.get q := by
  have hplace : fsPath (w.placePath .staging) = w.spot stagingSuffix := hw.place .staging
  refine (hun.outside q (hplace ▸ hq)).resolve_right ?_
  rintro ⟨hup, hne, hnone, _⟩
  rw [hplace] at hup
  have hparent : q <+: w.parent := by
    rcases List.prefix_concat_iff.mp hup with heq | hup
    · exact absurd (heq ▸ List.prefix_refl _) hq
    · exact hup
  rcases FileTree.isDir_iff.mp (t.2.tree.isDir_of_prefix hparent h.parent) with hroot | hdir
  · exact hne hroot
  · rw [hnone] at hdir
    cases hdir

/-- What an extraction has made fits. -/
theorem fitsAt_of_nodes (hw : w.Plain) (hshort : w.statePath.length < pathMax) {zip : Bytes} (hentries : w.EntriesFit zip)
    {t t' : Fs} (h : w.FitsAt t .staging)
    (hnodes : NodesOf (w.placePath .staging) ((w.archive zip).getD []) t t') : w.FitsAt t' .staging := by
  have hplace : fsPath (w.placePath .staging) = w.spot stagingSuffix := hw.place .staging
  intro q hq
  show (Copy.joined (w.placePath .staging) q).length < pathMax
  rcases hnodes _ hq with hold | hup | ⟨e, he, hsafe, hpath⟩
  · exact h q hold
  · rw [hplace] at hup
    have hnil : q = [] := by
      have hlen : (w.spot stagingSuffix ++ q).length ≤ (w.spot stagingSuffix).length := hup.length_le
      rw [List.length_append] at hlen
      exact List.length_eq_zero_iff.mp (by omega)
    rw [hnil]
    refine Nat.lt_of_le_of_lt ?_ hshort
    show (w.installDir ++ stagingSuffix).length ≤ (w.installDir ++ stateSuffix).length
    have hsuffix : stagingSuffix.length ≤ stateSuffix.length := by
      decide +kernel
    rw [List.length_append, List.length_append]
    omega
  · have hentry : ∃ entries, w.archive zip = some entries ∧ e ∈ entries := by
      cases harchive : w.archive zip with
      | none =>
          rw [harchive] at he
          cases he
      | some entries =>
          rw [harchive] at he
          exact ⟨entries, rfl, he⟩
    obtain ⟨entries, harchive, he⟩ := hentry
    refine Nat.lt_of_le_of_lt ?_ (hentries entries harchive e he)
    rcases hpath with hway | htmp
    · rw [putKey_eq _ hsafe, hplace, show w.spot (endingOf .staging) = w.spot stagingSuffix from rfl,
        List.prefix_append_right_inj] at hway
      refine Nat.le_trans (joined_length_of_below hway) (Nat.le_trans (joined_relKey_length _ e) ?_)
      rw [List.length_append]
      omega
    · rw [tmpKey_names _ hsafe, hplace, show w.spot (endingOf .staging) = w.spot stagingSuffix from rfl,
        List.append_cancel_left_eq] at htmp
      rw [htmp, fullPathOf, List.append_assoc, List.cons_append]
      exact joined_names_length _ _

/-- The extraction keeps what `update_extract` keeps, call by call; and where nothing is disturbed it succeeds. -/
theorem extract_safe (hw : w.Plain) {zip : Bytes} (h : w.Views tame origin t s)
    (hright : strict → w.CalledRight (.extract zip) s)
    (hdest : extractDest w.cwd zip (w.placePath .staging) = some (w.placePath .staging)) :
    Safe (device newMode)
      (crashContract (device newMode) (Undisturbed strict) fun t' =>
        Unpacking (w.placePath .staging) (w.archive zip) t.1 t'.1)
      (fun status t' => Unpacking (w.placePath .staging) (w.archive zip) t.1 t'.1
        ∧ (¬ strict ∧ status = .error ∨ status = .ok ∧ ∃ entries, w.archive zip = some entries
          ∧ Unpacked (w.placePath .staging) entries t.1 t'.1))
      (updateExtract w.cwd (w.archive zip) zip (w.placePath .staging)) t := by
  have hplace : fsPath (w.placePath .staging) = w.spot stagingSuffix := hw.place .staging
  have hunpacks : Safe (fsDevice newMode)
      (crashContract (fsDevice newMode) (fun e => strict → e.ok = true)
        (Unpacking (w.placePath .staging) (w.archive zip) t.1))
      (fun status u => Unpacking (w.placePath .staging) (w.archive zip) t.1 u
        ∧ (status = .error ∨ status = .ok ∧ ∃ entries, w.archive zip = some entries
          ∧ Unpacked (w.placePath .staging) entries t.1 u))
      (LibUpdate.updateExtract w.cwd (w.archive zip) zip (w.placePath .staging)) t.1 :=
    updateExtract_unpacks hdest _ t.2
  have hnamed : ∀ o : FsOp, (∃ full tmp, CallFor (w.placePath .staging) full tmp o) →
      ∀ path, o = .remove path → fsPath path ≠ [] := by
    rintro _ ⟨full, tmp, ho⟩ path rfl hroot
    obtain ⟨hbelow, hne⟩ := ho
    rw [hroot] at hbelow hne
    exact hne (List.prefix_nil.mp hbelow).symm
  have honly := updateExtract_only hdest (w.archive zip)
  have hI : Unpacking (w.placePath .staging) (w.archive zip) t.1 t.1 :=
    ⟨t.2, .refl _ _, Or.inr fun _ _ => rfl, .refl _ _ _⟩
  have hgood : strict → okOutcome.ok = true := fun _ => rfl
  by_cases hstrict : strict
  · -- nothing that is removed is there
    obtain ⟨hnone, _, entries, harchive, hclean⟩ := hright hstrict
    have hshown := h.place .staging
    rw [show s.get .staging = s.staging from rfl, hnone] at hshown
    have hfree : t.1.get (w.spot stagingSuffix) = none := hshown
    have hway : ∀ q, q <+: fsPath (w.placePath .staging) → t.1.fileAt q = none := by
      intro q hq
      rw [hplace] at hq
      rcases List.prefix_concat_iff.mp hq with rfl | hq
      · have hnothing : t.1.get (w.parent ++ [w.base ++ stagingSuffix]) = none := hfree
        rw [FileTree.fileAt, hnothing]
      · cases hfile : t.1.fileAt q with
        | none => rfl
        | some f =>
            have hdir := t.2.tree.isDir_of_prefix hq h.parent
            rw [t.2.tree.isDir_of_fileAt hfile] at hdir
            cases hdir
    have hempty : ∀ q, q ≠ [] → t.1.get (fsPath (w.placePath .staging) ++ q) = none := fun q _ =>
      t.2.tree.get_eq_none_below (hplace ▸ hfree) (hplace ▸ spot_ne_nil w _) (List.prefix_append _ q)
    have hdone : Safe (fsDevice newMode) undisturbed (fun status _ => status = .ok)
        (LibUpdate.updateExtract w.cwd (w.archive zip) zip (w.placePath .staging)) t.1 := by
      rw [harchive]
      exact updateExtract_clean hdest hclean t.2 hway hempty
    have hcalls : Calls (fsDevice newMode) (fun e => strict → e.ok = true) (FsCallOk strict)
        (LibUpdate.updateExtract w.cwd (w.archive zip) zip (w.placePath .staging)) t.1 := by
      have hstep : ∀ o e u, Posix u → Posix ((fsDevice newMode).step o e u).2 := fun _ _ _ hu => step_posix hu
      have hposix := hdone.keeps hstep t.2
      have hroots : Calls (fsDevice newMode) (fun e => strict → e.ok = true)
          (fun o _ => ∀ path, o = .remove path → fsPath path ≠ [])
          (LibUpdate.updateExtract w.cwd (w.archive zip) zip (w.placePath .staging)) t.1 :=
        honly.calls (fun o _ ho => hnamed o ho) t.1
      refine ((Safe.both hposix hroots).mono fun _ _ _ => trivial).weaken (fun _ he => ⟨he hstrict, he⟩)
        (fun ev hens path hop => ⟨hens.2 path hop, fun _ q hq => ?_⟩) fun _ _ => trivial
      have hmissing := hens.1.1 path hop
      rw [hens.1.2.tree.get_eq_none_below hmissing (hens.2 path hop) (List.prefix_append _ q)] at hq
      cases hq
    have hall := hunpacks.and_ends hdone fun _ he => he hstrict
    refine ((fsCall_implements newMode strict).safe hgood (hall.calls hcalls) hI rfl).crash_mono ?_ |>.mono ?_
    · rintro t' ⟨u, rfl, hu⟩
      exact hu
    · rintro status t' ⟨u, rfl, ⟨hu, hends⟩, rfl⟩
      exact ⟨hu, Or.inr (hends.resolve_left (by decide))⟩
  · have hcalls : Calls (fsDevice newMode) (fun e => strict → e.ok = true) (FsCallOk strict)
        (LibUpdate.updateExtract w.cwd (w.archive zip) zip (w.placePath .staging)) t.1 :=
      honly.calls (fun o _ ho path hop => ⟨hnamed o ho path hop, fun hs => absurd hs hstrict⟩) t.1
    refine ((fsCall_implements newMode strict).safe hgood (hunpacks.calls hcalls) hI rfl).crash_mono ?_ |>.mono ?_
    · rintro t' ⟨u, rfl, hu⟩
      exact hu
    · rintro status t' ⟨u, rfl, hu, hends⟩
      exact ⟨hu, hends.imp_left fun herror => ⟨hstrict, herror⟩⟩

/-- What is laid over what was there shows as the package laid over it. -/
theorem laidOver_shows {zip : Bytes} {t' : Volume} {entries : List Entry}
    (hlaid : ∀ q, q ≠ [] → shownAt t'.1 (w.spot (endingOf .staging) ++ q)
      = (layEntries entries (viewAt t.1 (w.spot (endingOf .staging)))).get q)
    (harchive : w.archive zip = some entries) (hshown : Shows t.1 (w.spot (endingOf .staging)) (s.get .staging))
    (q : List Bytes) :
    ((w.world.package zip).overlay (w.world.cleared zip (s.staging.getD []))).get q
      = (viewAt t'.1 (w.spot (endingOf .staging))).get q := by
  have hpackage : (w.world.package zip).get q = if q.isEmpty then none else (layEntries entries []).get q := by
    show (packageOf ((w.archive zip).getD [])).get q = _
    rw [harchive]
    exact FileTree.get_prune _ _ _
  have hold : (s.staging.getD []).get q = (viewAt t.1 (w.spot (endingOf .staging))).get q := by
    rw [show s.get .staging = s.staging from rfl] at hshown
    cases hstaging : s.staging with
    | none =>
        rw [hstaging] at hshown
        have hnone : t.1.get (w.spot (endingOf .staging) ++ q) = none :=
          t.2.tree.get_eq_none_below hshown (spot_ne_nil w _) (List.prefix_append _ q)
        rw [get_viewAt, shownAt, hnone]
        exact (ite_self none).symm
    | some v =>
        rw [hstaging] at hshown
        exact hshown.2 q
  have hcleared : (w.world.cleared zip (s.staging.getD [])).get q
      = if entries.any (·.clears q) then none else (viewAt t.1 (w.spot (endingOf .staging))).get q := by
    show FileTree.get (FileTree.prune _ fun q => (tempsOf ((w.archive zip).getD [])).any (·.isPrefixOf q)) q = _
    rw [FileTree.get_prune, any_tempsOf, harchive, hold]
    rfl
  rw [FileTree.get_overlay, hpackage, hcleared]
  by_cases hq : q = []
  · -- the root is not listed
    rw [hq, get_viewAt, get_viewAt, if_pos rfl, if_pos rfl, ite_self]
    rfl
  · rw [if_neg (by simpa using hq), get_viewAt t'.1, if_neg hq, hlaid q hq, get_layEntries entries (viewAt t.1 _)]

theorem extract_carried (hw : w.Plain) (hshort : tame → w.statePath.length < pathMax) (zip : Bytes)
    (h : w.Views tame origin t s) (hfitting : tame → w.Fitting (.extract zip)) (hright : strict → w.CalledRight (.extract zip) s) :
    CarriesOut newMode w tame strict origin (.extract zip) t s := by
  have hstep : ∀ e, (updaterDevice w.world).step (.extract zip) e s = stepExtract w.world zip e s := fun _ => rfl
  have hplace : fsPath (w.placePath .staging) = w.spot stagingSuffix := hw.place .staging
  have hshown := h.place .staging
  show Safe _ _ _ (updateExtract w.cwd (w.archive zip) zip (w.placePath .staging)) t
  cases hdest : extractDest w.cwd zip (w.placePath .staging) with
  | none =>
      have herror : updateExtract w.cwd (w.archive zip) zip (w.placePath .staging) = pure .error := by
        unfold updateExtract LibUpdate.updateExtract
        rw [hdest]
        rfl
      rw [herror]
      refine ⟨.fail, fun hstrict => ?_, rfl, h⟩
      have hsome := (hright hstrict).2.1
      rw [hdest] at hsome
      cases hsome
  | some dest =>
      obtain rfl := extractDest_staging hw hdest
      have hframe : ∀ t' : Volume, Unpacking (w.placePath .staging) (w.archive zip) t.1 t'.1 →
          ∀ q, ¬ w.spot (endingOf .staging) <+: q → t'.1.get q = t.1.get q :=
        fun t' hun q hq => Unpacking.frame hw h hun hq
      have hfits : ∀ t' : Volume, Unpacking (w.placePath .staging) (w.archive zip) t.1 t'.1 →
          tame → w.FitsAt t'.1 .staging :=
        fun t' hun ht => fitsAt_of_nodes hw (hshort ht) (hfitting ht _ rfl) (h.fits ht .staging) hun.nodes
      -- what is cut short shows as it is
      have hcut : ∀ t' : Volume, Unpacking (w.placePath .staging) (w.archive zip) t.1 t'.1 →
          w.Views tame origin t' s
            ∨ ∃ left, w.Views tame origin t' { s with staging := some left } := by
        intro t' hun
        rcases hun.inside with hdir | hsame
        · have hthere : t'.1.get (w.spot (endingOf .staging)) = some .dir :=
            (FileTree.isDir_iff.mp (hplace ▸ hdir)).resolve_left (spot_ne_nil w _)
          exact Or.inr ⟨_, h.changePlace .staging (hframe t' hun) (shows_viewAt hthere) (hfits t' hun)⟩
        · have hviews := h.changePlace .staging (hframe t' hun)
            (hshown.congr fun q hq => hsame q (hplace ▸ hq)) (hfits t' hun)
          exact Or.inl hviews
      refine ((extract_safe hw h hright hdest).crash_mono ?_).mono ?_
      · intro t' hun
        rcases hcut t' hun with hviews | ⟨left, hviews⟩
        · exact Or.inl hviews
        · exact Or.inr ⟨.halfway left, hviews⟩
      · rintro status t' ⟨hun, ⟨hstrict, rfl⟩ | ⟨rfl, entries, harchive, hdone⟩⟩
        · rcases hcut t' hun with hviews | ⟨left, hviews⟩
          · exact ⟨.fail, fun hs => absurd hs hstrict, rfl, hviews⟩
          · exact ⟨.halfway left, fun hs => absurd hs hstrict, rfl, hviews⟩
        · have hthere : t'.1.get (w.spot (endingOf .staging)) = some .dir :=
            (FileTree.isDir_iff.mp (hplace ▸ hdone.made)).resolve_left (spot_ne_nil w _)
          refine ⟨.ok, fun _ => rfl, rfl, h.changePlace .staging (hframe t' hun) ⟨hthere, fun q => ?_⟩ (hfits t' hun)⟩
          exact laidOver_shows (hplace ▸ hdone.laid) harchive hshown q

/-- **The steps of the updater are carried out call by call.** Let the install directory be one that the checks accept,
    without a separator at its end. Each program does what its step in `Updater.Main` may do, wherever it is cut short
    and however its calls turn out; and where no call is disturbed, names and entries fit into the buffers and the step
    is called as `CalledRight` says, it does what the step does undisturbed. -/
theorem carryOut_implements (newMode : Nat) (hw : w.Plain) (hshort : tame → w.statePath.length < pathMax)
    (hstrict : strict → tame) (origin : Fs) :
    Implements (device newMode) (updaterDevice w.world) (w.Views tame origin) (Undisturbed strict)
      (fun e => strict → e = .ok) (fun o s => (tame → w.Fitting o) ∧ (strict → w.CalledRight o s)) w.carryOut := by
  intro o t s hright h
  cases o with
  | loadState => exact loadState_carried hw h
  | removeState => exact removeState_carried hw (fun hs => hshort (hstrict hs)) h
  | isDir p => exact isDir_carried hw p h
  | waitParent pid => exact waitParent_carried pid h
  | removeTree p => exact removeTree_carried hw hstrict p h
  | extract zip => exact extract_carried hw hshort zip h hright.1 hright.2
  | saveState phase zip => exact saveState_carried hw phase zip h
  | move src dst => exact move_carried hw src dst hright.2 h
  | relaunch app => exact relaunch_carried app h

end Setting

end Sys

end LibUpdate
