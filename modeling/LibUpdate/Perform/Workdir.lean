import LibUpdate.Perform.Gate
import LibUpdate.Platform.Volume

/-!
# `Perform.Workdir` — the attempts at a work directory (`update.c`, `platform_fs.c`)

`update_perform` tries eight names, made of the time, the process and the number of the attempt, and takes the first
one that `platform_fs_create_directory_recursive` makes. What the attempts come to is told from the file system they
find (`createWorkdir_takes`): a name is taken where no file is on the way to it and no call fails. To the creator a
directory that is there already is as good as a new one.

What comes after the loop works in the directory that it has ended with: it downloads into it, and removes it or
nothing (`Within`).
-/

namespace LibUpdate

/-! ## Making one directory -/

/-- Nothing stands against `mkdir -p`: no file is on the way, and no call is made to fail. -/
structure Makeable (s : Fs) (es : List FsOutcome) (p : Bytes) : Prop where
  free : ∀ d ∈ wayTo p, s.fileAt (fsPath d) = none
  answered : (wayTo p).length ≤ es.length
  calls : ∀ e ∈ es.take (wayTo p).length, e.ok = true

/-- **`platform_fs_create_directory_recursive`** succeeds exactly where nothing stands against it. That the directory
    is there already does not. -/
theorem stepCreateDirectory_iff {s : Fs} (hs : Posix s) {p : Bytes} (hne : p ≠ []) (hshort : p.length < pathMax)
    (es : List FsOutcome) : (stepCreateDirectory p es s).1 = true ↔ Makeable s es p := by
  have hprog : createDirectoryRecursive p = mkdirAll (wayTo p) := by
    rw [createDirectoryRecursive, if_neg hne, if_neg (by omega)]
    rfl
  show ((fsDevice defaultMode).run (createDirectoryRecursive p) es s).result.getD false = true ↔ _
  rw [hprog]
  constructor
  · intro h
    have hresult : ((fsDevice defaultMode).run (mkdirAll (wayTo p)) es s).result = some true := by
      cases hr : ((fsDevice defaultMode).run (mkdirAll (wayTo p)) es s).result with
      | none =>
          rw [hr] at h
          cases h
      | some made =>
          rw [hr] at h
          rw [show made = true from h]
    obtain ⟨hlen, hok⟩ := mkdirAll_calls hresult
    refine ⟨?_, hlen, hok⟩
    obtain ⟨hgrown, hdirs⟩ := ((mkdirAll_yields (wayTo p) s).run_sound
      fun _ _ => trivial).2 true hresult
    intro d hd
    cases hfile : s.fileAt (fsPath d) with
    | none => rfl
    | some f =>
        -- the file would still be there
        have hthere := (hgrown.fileAt_eq (fsPath d)).trans hfile
        have hne := FileTree.ne_nil_of_isDir_eq_false (hs.tree.isDir_of_fileAt hfile)
        have hdir := hdirs rfl d hd
        rw [FileTree.isDir_eq_false_of_fileAt hne hthere] at hdir
        cases hdir
  · intro h
    have hassumes : ∀ ev ∈ ((fsDevice defaultMode).run (mkdirAll (wayTo p)) es s).events, nothingFails.assumes ev :=
      fun ev hev => h.calls _ (Device.outcome_mem_take _ (mkdirAll_atMost _) hev)
    obtain ⟨made, hmade⟩ := Option.isSome_iff_exists.mp
      (Device.result_isSome_of_atMost (fsDevice defaultMode) (mkdirAll_atMost (wayTo p)) h.answered s)
    obtain ⟨rfl, _⟩ := ((wayTo_made hs h.free).run_sound hassumes).2 made hmade
    rw [hmade]
    rfl

/-! ## The attempts -/

/-- The name of attempt `k`, where its calls turn out as `e`. -/
def attemptName (tempBase : Bytes) (k : Nat) (e : LibOutcome) : Bytes :=
  workdirName tempBase ((e .time ^^^ (e .getpid).toUInt64 <<< 24) + UInt64.ofNat k)

/-- The outcomes of the calls of `left` attempts from the `k`-th on, where attempt `i` turns out as `env i`: the
    time, the process, the directory. -/
def attemptOutcomes (env : Nat → LibOutcome) (k left : Nat) : List LibOutcome :=
  (List.range' k left).flatMap fun i => [env i, env i, env i]

/-- What the creator does in attempt `k`. -/
def attemptMkdirs (tempBase : Bytes) (env : Nat → LibOutcome) (k : Nat) (s : Fs) : Bool × Fs :=
  stepCreateDirectory (attemptName tempBase k (env k)) (env k (.createDirectory (attemptName tempBase k (env k)))) s

/-- The directory of attempt `i` would be made: in the file system `s` nothing stands against `mkdir -p` of its
    name. -/
def AttemptMakes (tempBase : Bytes) (env : Nat → LibOutcome) (s : Fs) (i : Nat) : Prop :=
  Makeable s (env i (.createDirectory (attemptName tempBase i (env i)))) (attemptName tempBase i (env i))

/-- The attempts from the `k`-th on come to the `i`-th, and it makes its directory: the names up to there fit in the
    buffer, and none of the directories before it would be made. -/
structure AttemptTakes (tempBase : Bytes) (env : Nat → LibOutcome) (s : Fs) (k i : Nat) : Prop where
  le : k ≤ i
  fits : ∀ j, k ≤ j → j ≤ i → (attemptName tempBase j (env j)).length < pathMax
  fails : ∀ j, k ≤ j → j < i → ¬ AttemptMakes tempBase env s j
  makes : AttemptMakes tempBase env s i

namespace AttemptTakes

variable {tempBase : Bytes} {env : Nat → LibOutcome} {s : Fs} {k i : Nat}

/-- The attempts come to one directory at most. -/
theorem unique {j : Nat} (hi : AttemptTakes tempBase env s k i) (hj : AttemptTakes tempBase env s k j) : i = j := by
  rcases Nat.lt_trichotomy i j with h | h | h
  · exact absurd hi.makes (hj.fails i hi.le h)
  · exact h
  · exact absurd hj.makes (hi.fails j hj.le h)

/-- From an attempt that fails the attempts go on to the next. -/
theorem succ_iff (hfits : (attemptName tempBase k (env k)).length < pathMax) (hfails : ¬ AttemptMakes tempBase env s k) :
    AttemptTakes tempBase env s k i ↔ AttemptTakes tempBase env s (k + 1) i := by
  constructor
  · intro h
    have hne : k ≠ i := by
      rintro rfl
      exact hfails h.makes
    have hle := h.le
    exact ⟨by omega, fun j hj => h.fits j (by omega), fun j hj => h.fails j (by omega), h.makes⟩
  · intro h
    have hle := h.le
    refine ⟨by omega, ?_, ?_, h.makes⟩
    · intro j hkj hji
      rcases Nat.eq_or_lt_of_le hkj with rfl | hlt
      · exact hfits
      · exact h.fits j hlt hji
    · intro j hkj hji
      rcases Nat.eq_or_lt_of_le hkj with rfl | hlt
      · exact hfails
      · exact h.fails j hlt hji

end AttemptTakes

/-- A directory on the way is no file on the way. -/
theorem Makeable.grown {s t : Fs} (hgrown : Grown s t) {es : List FsOutcome} {p : Bytes} :
    Makeable t es p ↔ Makeable s es p := by
  constructor
  · intro h
    refine ⟨?_, h.answered, h.calls⟩
    intro d hd
    rw [← hgrown.fileAt_eq]
    exact h.free d hd
  · intro h
    refine ⟨?_, h.answered, h.calls⟩
    intro d hd
    rw [hgrown.fileAt_eq]
    exact h.free d hd

theorem attemptName_ne_nil (tempBase : Bytes) (k : Nat) (e : LibOutcome) : attemptName tempBase k e ≠ [] := by
  rw [attemptName, workdirName]
  intro hnil
  have hmid := (List.append_eq_nil_iff.mp (List.append_eq_nil_iff.mp hnil).1).2
  exact absurd hmid (by decide)

theorem stepCreateDirectory_grown {s : Fs} (hs : Posix s) (p : Bytes) (es : List FsOutcome) :
    Grown s (stepCreateDirectory p es s).2 ∧ Posix (stepCreateDirectory p es s).2 := by
  refine ⟨?_, run_posix _ es hs⟩
  show Grown s ((fsDevice defaultMode).run (createDirectoryRecursive p) es s).final
  unfold createDirectoryRecursive
  split
  · simpa using Grown.refl s
  split
  · simpa using Grown.refl s
  · exact mkdirAll_final _ es s

theorem ofNat_succ (k : Nat) : UInt64.ofNat k + 1 = UInt64.ofNat (k + 1) := by
  rw [UInt64.ofNat_add]
  rfl

theorem createWorkdir_succ (tempBase : Bytes) (attempt : UInt64) (left : Nat) :
    createWorkdir tempBase attempt (left + 1) = (do
      let now ← ask .time
      let pid ← ask .getpid
      (snprintf pathMax (workdirName tempBase ((now ^^^ pid.toUInt64 <<< 24) + attempt))).elim (pure none)
        fun workdir => do
          let made ← ask (.createDirectory workdir)
          if made then pure (some workdir) else createWorkdir tempBase (attempt + 1) left) := by
  rw [createWorkdir]
  refine congrArg (ask .time >>= ·) (funext fun now => congrArg (ask .getpid >>= ·) (funext fun pid => ?_))
  cases snprintf pathMax (workdirName tempBase ((now ^^^ pid.toUInt64 <<< 24) + attempt)) with
  | none => rfl
  | some workdir => rfl

/-- One attempt: its directory is taken where it is made, and the attempts go on where it is not. -/
theorem createWorkdir_step (tempBase : Bytes) (env : Nat → LibOutcome) (k left : Nat) (t : LibState) :
    (libDevice.run (createWorkdir tempBase (UInt64.ofNat k) (left + 1)) (attemptOutcomes env k (left + 1)) t).result
      = if (attemptName tempBase k (env k)).length ≥ pathMax then some none
        else if (attemptMkdirs tempBase env k t.fs).1 then some (some (attemptName tempBase k (env k)))
        else (libDevice.run (createWorkdir tempBase (UInt64.ofNat (k + 1)) left) (attemptOutcomes env (k + 1) left)
          { t with fs := (attemptMkdirs tempBase env k t.fs).2 }).result := by
  rw [createWorkdir_succ, attemptOutcomes, List.range'_succ, List.flatMap_cons]
  show (libDevice.run ((snprintf pathMax (attemptName tempBase k (env k))).elim (pure none) fun workdir => do
      let made ← ask (.createDirectory workdir)
      if made then pure (some workdir) else createWorkdir tempBase (UInt64.ofNat k + 1) left)
    (env k :: attemptOutcomes env (k + 1) left) t).result = _
  by_cases hlong : (attemptName tempBase k (env k)).length ≥ pathMax
  · rw [if_pos hlong, snprintf, if_pos hlong]
    rfl
  · rw [if_neg hlong, snprintf, if_neg hlong, ofNat_succ]
    show (libDevice.run (if (attemptMkdirs tempBase env k t.fs).1 then pure (some (attemptName tempBase k (env k)))
      else createWorkdir tempBase (UInt64.ofNat (k + 1)) left) (attemptOutcomes env (k + 1) left)
        { t with fs := (attemptMkdirs tempBase env k t.fs).2 }).result = _
    cases (attemptMkdirs tempBase env k t.fs).1 with
    | true => simp
    | false => rfl

/-- **What the attempts come to.** They come back, with the name that the first of them takes. -/
theorem createWorkdir_takes (tempBase : Bytes) (env : Nat → LibOutcome) {s : Fs} (left k : Nat) {t : LibState}
    (hgrown : Grown s t.fs) (hposix : Posix t.fs) :
    ∃ r, (libDevice.run (createWorkdir tempBase (UInt64.ofNat k) left) (attemptOutcomes env k left) t).result = some r
      ∧ ∀ w, r = some w ↔ ∃ i, i < k + left ∧ AttemptTakes tempBase env s k i ∧ w = attemptName tempBase i (env i) := by
  induction left generalizing k t with
  | zero =>
      refine ⟨none, rfl, fun w => iff_of_false (by simp) ?_⟩
      rintro ⟨i, hi, htakes, _⟩
      have hle := htakes.le
      omega
  | succ left ih =>
      rw [createWorkdir_step]
      by_cases hlong : (attemptName tempBase k (env k)).length ≥ pathMax
      · rw [if_pos hlong]
        refine ⟨none, rfl, fun w => iff_of_false (by simp) ?_⟩
        rintro ⟨i, _, htakes, _⟩
        exact absurd (htakes.fits k (Nat.le_refl k) htakes.le) (by omega)
      rw [if_neg hlong]
      have hfits : (attemptName tempBase k (env k)).length < pathMax := by omega
      have hmakes : (attemptMkdirs tempBase env k t.fs).1 = true ↔ AttemptMakes tempBase env s k :=
        (stepCreateDirectory_iff hposix (attemptName_ne_nil tempBase k (env k)) hfits _).trans
          (Makeable.grown hgrown)
      cases hmade : (attemptMkdirs tempBase env k t.fs).1 with
      | true =>
          have htakes : AttemptTakes tempBase env s k k := by
            refine ⟨Nat.le_refl k, ?_, fun j hkj hjk => absurd hkj (by omega), hmakes.mp hmade⟩
            intro j hkj hjk
            obtain rfl := Nat.le_antisymm hkj hjk
            exact hfits
          refine ⟨_, rfl, fun w => ⟨?_, ?_⟩⟩
          · rintro ⟨⟩
            exact ⟨k, by omega, htakes, rfl⟩
          · rintro ⟨i, _, hi, rfl⟩
            rw [htakes.unique hi]
      | false =>
          have hfails : ¬ AttemptMakes tempBase env s k := by
            intro h
            rw [hmakes.mpr h] at hmade
            cases hmade
          obtain ⟨hstep, hnext⟩ : Grown t.fs (attemptMkdirs tempBase env k t.fs).2
              ∧ Posix (attemptMkdirs tempBase env k t.fs).2 := stepCreateDirectory_grown hposix _ _
          obtain ⟨r, hr, hiff⟩ := ih (k + 1) (t := { t with fs := (attemptMkdirs tempBase env k t.fs).2 })
            (hgrown.trans hstep) hnext
          refine ⟨r, hr, fun w => (hiff w).trans ?_⟩
          have hbound : k + 1 + left = k + (left + 1) := by omega
          rw [hbound]
          exact exists_congr fun i => and_congr_right fun _ =>
            and_congr_left fun _ => (AttemptTakes.succ_iff hfits hfails).symm

/-! ## What the directory is used for -/

/-- No directory is made, and what is downloaded or removed is the package in the directory, or the directory. -/
def Within (workdir : Bytes) : LibOp → Prop
  | .createDirectory _ => False
  | .streamDownload _ path => path = workdir ++ ascii "/package.bin"
  | .removePath path => path = workdir ∨ path = workdir ++ ascii "/package.bin"
  | _ => True

section

variable {workdir : Bytes}

theorem Within.of_asks (o : LibOp) (h : Asks o) : Within workdir o := by
  cases o <;> first | exact h.elim | exact trivial

theorem platformProcessSpawnWithCwd_within (path : Bytes) (argv : List Bytes) (cwd : Bytes) :
    (platformProcessSpawnWithCwd path argv cwd).Only (Within workdir) := by
  unfold platformProcessSpawnWithCwd
  split
  · exact .ret
  refine .perform trivial fun av => ?_
  split
  case isFalse => exact .ret
  refine ((dupArgs_asks argv).mono Within.of_asks).bind fun copied => ?_
  split
  case isFalse => exact .ret
  refine .perform trivial fun piped => ?_
  split
  case isFalse => exact .ret
  exact .perform trivial fun _ => .ret

theorem absolutePaths_within (inst exe dir updater : Bytes) :
    (absolutePaths inst exe dir updater).Only (Within workdir) := by
  refine ((makeAbsolute_asks inst).mono Within.of_asks).bind fun _ => ?_
  split
  · exact .ret
  refine ((makeAbsolute_asks exe).mono Within.of_asks).bind fun _ => ?_
  split
  · exact .ret
  refine ((makeAbsolute_asks dir).mono Within.of_asks).bind fun _ => ?_
  split
  · exact .ret
  refine ((makeAbsolute_asks updater).mono Within.of_asks).bind fun _ => ?_
  split
  · exact .ret
  split
  · exact .ret
  · exact .ret

theorem spawnPaths_within (installCopy : Option Bytes) : (spawnPaths installCopy).Only (Within workdir) := by
  refine ((platformFsGetExecutablePath_asks _).mono Within.of_asks).bind fun _ => ?_
  split
  · exact .ret
  refine ((platformFsGetExecutableDir_asks _).mono Within.of_asks).bind fun _ => ?_
  split
  · exact .ret
  split
  · exact absolutePaths_within _ _ _ _
  · exact .ret

theorem spawnUpdater_within (pkgCopy : Bytes) (installCopy : Option Bytes) :
    (spawnUpdater pkgCopy installCopy).Only (Within workdir) := by
  refine (spawnPaths_within installCopy).bind fun _ => ?_
  split
  · exact .ret
  refine .perform trivial fun _ => ?_
  split
  · exact .ret
  · exact platformProcessSpawnWithCwd_within _ _ _

theorem updateApplySpawn_within (packagePath : Bytes) : (updateApplySpawn packagePath).Only (Within workdir) := by
  refine .perform trivial fun ctx => ?_
  split
  · exact .ret
  refine ((dupInstallDir_asks ctx).mono Within.of_asks).bind fun _ => ?_
  split
  case isFalse => exact .ret
  refine ((makeAbsolute_asks packagePath).mono Within.of_asks).bind fun _ => ?_
  split
  · exact .ret
  split
  · exact .ret
  refine ((dupStr_asks _).mono Within.of_asks).bind fun _ => ?_
  split
  · exact .ret
  refine ((installTarget_asks ctx).mono Within.of_asks).bind fun _ => ?_
  split
  · exact .ret
  · exact spawnUpdater_within _ _

theorem abandon_within : (abandon workdir).Only (Within workdir) := by
  have hattempts (left : Nat) : (removeAttempts workdir left).Only (Within workdir) := by
    induction left with
    | zero => exact .ret
    | succ left ih =>
        refine .perform (Or.inl rfl) fun gone => ?_
        split
        · exact .ret
        · exact ih
  have hremove : (Perform.updateRemoveTree workdir).Only (Within workdir) := by
    unfold Perform.updateRemoveTree
    split
    · exact .ret
    · exact hattempts 16
  exact hremove.bind fun _ => .ret

/-- **From the work directory on** `update_perform` makes no directory, downloads into this one, and removes nothing
    but it and the package in it. -/
theorem performIn_within (fuel : Nat) (info : UpdateInfo) (tempBase workdir : Bytes) :
    (performIn fuel info tempBase workdir).Only (Within workdir) := by
  unfold performIn
  split
  · exact abandon_within
  next zipPath hzip =>
  obtain rfl := (snprintf_eq_some.mp hzip).2
  split
  · exact abandon_within
  have hpackage : (abandonPackage workdir (workdir ++ ascii "/package.bin")).Only (Within workdir) :=
    .perform (Or.inr rfl) fun _ => abandon_within
  have hspawn : (performSpawn workdir (workdir ++ ascii "/package.bin")).Only (Within workdir) := by
    refine (updateApplySpawn_within _).bind fun spawned => ?_
    split
    · exact .ret
    · exact abandon_within
  have hsignature : (performSignature workdir (workdir ++ ascii "/package.bin")).Only (Within workdir) := by
    refine .perform trivial fun ctx => ?_
    split
    · exact hspawn
    refine .perform trivial fun answer => ?_
    split
    · exact hpackage
    · exact hspawn
  refine ((dupStr_asks _).mono Within.of_asks).bind fun _ => ((dupStr_asks _).mono Within.of_asks).bind fun _ => ?_
  split
  case h_2 => exact abandon_within
  refine .perform rfl fun downloaded => ?_
  split
  case isFalse => exact abandon_within
  refine ((updateVerify_asks _ _ _).mono Within.of_asks).bind fun _ => ?_
  split
  · exact .ret
  · exact hsignature
  · exact hpackage

end

/-- **The work directory is fresh**, exactly if the first name that would be made is not a directory already; and it is
    the only one that `update_perform` downloads into or removes. -/
theorem createWorkdir_fresh_iff (tempBase : Bytes) (env : Nat → LibOutcome) (session : Session) (fs : Volume) :
    ((∀ w, (libDevice.run (createWorkdir tempBase 0 8) (attemptOutcomes env 0 8) ⟨session, fs.1⟩).result
        = some (some w) → fs.1.get (fsPath w) = none)
      ↔ ∀ i < 8, AttemptTakes tempBase env fs.1 0 i →
        fs.1.get (fsPath (attemptName tempBase i (env i))) ≠ some .dir)
      ∧ ∀ fuel info w, (performIn fuel info tempBase w).Only (Within w) := by
  obtain ⟨r, hr, hiff⟩ := createWorkdir_takes tempBase env 8 0 (t := ⟨session, fs.1⟩)
    (Grown.refl fs.1) fs.2
  have hresult : (libDevice.run (createWorkdir tempBase 0 8) (attemptOutcomes env 0 8) ⟨session, fs.1⟩).result
      = some r := hr
  rw [hresult]
  refine ⟨⟨?_, ?_⟩, fun fuel info w => performIn_within fuel info tempBase w⟩
  · intro hfresh i hi htakes hdir
    have hnone := hfresh _ (congrArg some ((hiff _).mpr ⟨i, by omega, htakes, rfl⟩))
    rw [hdir] at hnone
    cases hnone
  · intro hplain w hw
    obtain ⟨i, hi, htakes, rfl⟩ := (hiff w).mp (Option.some.inj hw)
    have hfile := htakes.makes.free (attemptName tempBase i (env i)) (by simp [wayTo])
    cases hget : fs.1.get (fsPath (attemptName tempBase i (env i))) with
    | none => rfl
    | some n =>
        cases n with
        | dir => exact absurd hget (hplain i (by omega) htakes)
        | file f =>
            rw [FileTree.fileAt, hget] at hfile
            cases hfile

/-! ## A planted directory -/

/-- Someone else has made the first name, with a file in it. -/
def plantedFs : Fs :=
  [([ascii "tmp"], .dir), ([ascii "tmp", ascii "libupdate_1000000"], .dir),
    ([ascii "tmp", ascii "libupdate_1000000", ascii "mine"], .file ⟨ascii "data", 0o600⟩)]

/-- Nothing can be downloaded. -/
def unreachableOutcome : LibOutcome
  | .streamDownload _ _ => .failed none
  | o => abcOutcome o

/-- **A directory that was there is taken** for the work directory, and `update_perform` removes it, with the file
    that is in it, when the download fails. -/
theorem updatePerform_removes_planted :
    (libDevice.run (createWorkdir (ascii "/tmp") 0 8) (attemptOutcomes (fun _ => unreachableOutcome) 0 8)
        ⟨pinnedState.session, plantedFs⟩).result = some (some (ascii "/tmp/libupdate_1000000"))
      ∧ plantedFs.get (fsPath (ascii "/tmp/libupdate_1000000")) = some .dir
      ∧ plantedFs.get (fsPath (ascii "/tmp/libupdate_1000000/mine")) = some (.file ⟨ascii "data", 0o600⟩)
      ∧ (libDevice.run (updatePerform 8 (ascii "1.9")) (.replicate 40 unreachableOutcome)
          ⟨pinnedState.session, plantedFs⟩).result = some (some .error)
      ∧ (libDevice.run (updatePerform 8 (ascii "1.9")) (.replicate 40 unreachableOutcome)
          ⟨pinnedState.session, plantedFs⟩).final.fs.get (fsPath (ascii "/tmp/libupdate_1000000/mine")) = none := by
  decide +kernel

end LibUpdate
