import LibUpdate.Foundation.Numeral
import LibUpdate.Path.Absolute
import LibUpdate.Perform.Process
import LibUpdate.System.Recovery

/-!
# `System.Handover` — from the library to the updater

`update_apply_spawn` writes a command line, and `main` of the updater reads it in another process. What is
written is what is read (`parseArgs_spawnArgv`), and the paths on it are ones that the updater's own checks
accept: no updater is started that turns its command line down, but for an install directory whose name leaves
no room for the names beside it (`updateApplySpawn_hands_over`).

With `System.Recovery` this makes an update out of the two programs (`update_goes_through`).
-/

namespace LibUpdate

/-! ## The command line -/

theorem parseArgs_spawnArgv (p : SpawnPaths) {pkgCopy : Bytes} {pid : UInt32} (hpkg : pkgCopy ≠ [])
    (hinst : p.instAbs ≠ []) (hexe : p.exePath ≠ []) (hpos : 0 < pid.toNat) (hint : pid.toNat < 0x80000000) :
    parseArgs (spawnArgv p pkgCopy (pidText pid)) = some ⟨pkgCopy, p.instAbs, pid.toNat, p.exePath⟩ := by
  have hpid : atoi (pidText pid) = pid.toNat := Decimal.atoi_ofNat hint
  have hoptions : parseOptions ⟨none, none, none, -1⟩ (spawnArgv p pkgCopy (pidText pid)).tail
      = some ⟨some pkgCopy, some p.instAbs, some p.exePath, pid.toNat⟩ := by
    rw [← hpid]
    have htarget : ascii "--target" ≠ ascii "--install" := by decide +kernel
    have hpid₁ : ascii "--pid" ≠ ascii "--install" := by decide +kernel
    have hpid₂ : ascii "--pid" ≠ ascii "--target" := by decide +kernel
    have happ₁ : ascii "--app" ≠ ascii "--install" := by decide +kernel
    have happ₂ : ascii "--app" ≠ ascii "--target" := by decide +kernel
    have happ₃ : ascii "--app" ≠ ascii "--pid" := by decide +kernel
    simp only [spawnArgv, List.tail_cons, parseOptions, if_true, if_neg htarget, if_neg hpid₁, if_neg hpid₂,
      if_neg happ₁, if_neg happ₂, if_neg happ₃]
  unfold parseArgs
  rw [hoptions]
  have hgood : ¬ (pkgCopy = [] ∨ p.instAbs = [] ∨ p.exePath = [] ∨ (pid.toNat : Int) ≤ 0) := by
    rintro (h | h | h | h)
    · exact hpkg h
    · exact hinst h
    · exact hexe h
    · omega
  exact if_neg hgood

/-- What is appended to a path that is accepted, where it is no component of its own. -/
theorem updateValidatePath_append {path ext : Bytes} (h : updateValidatePath path true = .ok)
    (hplain : ∀ c ∈ ext, 32 ≤ c ∧ isAnySep c = false) (hlong : 2 < ext.length)
    (hshort : (path ++ ext).length < pathMax) : updateValidatePath (path ++ ext) true = .ok := by
  obtain ⟨hok, habs⟩ := updateValidatePath_eq_ok.mp h
  obtain ⟨first, seg, hsplit, happend, -⟩ := exists_last_segment isAnySep path
  rw [updateValidatePath_eq_ok]
  refine ⟨⟨by simp [hok.nonempty], hshort, ?_, ?_⟩, fun _ => ?_⟩
  · intro c hc
    rcases List.mem_append.mp hc with hc | hc
    · exact hok.chars c hc
    · exact (hplain c hc).1
  · intro s hs
    rw [happend ext fun c hc => (hplain c hc).2] at hs
    rcases List.mem_append.mp hs with hs | hs
    · exact hok.segments s (by rw [hsplit]; exact List.mem_append_left _ hs)
    · -- the last component has become longer than `..`
      rw [List.mem_singleton.mp hs]
      constructor
      · intro hdot
        have hlen := congrArg List.length hdot
        rw [List.length_append, show (ascii ".").length = 1 from rfl] at hlen
        omega
      · intro hdotdot
        have hlen := congrArg List.length hdotdot
        rw [List.length_append, show (ascii "..").length = 2 from rfl] at hlen
        omega
  · obtain ⟨c, rest, rfl⟩ := List.exists_cons_of_ne_nil hok.nonempty
    exact habs rfl

/-- The command line is taken up as these arguments, each of them is the one that was written in its place, and each
    path is accepted. -/
structure HandsOver (argv : List Bytes) (a : Args) : Prop where
  parse : parseArgs argv = some a
  zip : updateValidatePath a.zip true = .ok
  target : updateValidatePath a.target true = .ok
  app : updateValidatePath a.app true = .ok
  join : joinInstallApp a.target a.app = some a.app
  zipAt : argv[2]? = some a.zip
  targetAt : argv[4]? = some a.target
  pidAt : ∃ pid : UInt32, argv[6]? = some (pidText pid) ∧ a.pid = pid.toNat
  appAt : argv[8]? = some a.app

theorem suffixes_plain : ∀ x ∈ [stagingSuffix, backupSuffix, stateSuffix],
    (∀ c ∈ x, 32 ≤ c ∧ isAnySep c = false) ∧ 2 < x.length ∧ x.length ≤ stateSuffix.length := by
  decide +kernel

theorem updateValidatePath_relax {path : Bytes} (h : updateValidatePath path true = .ok) :
    updateValidatePath path false = .ok :=
  updateValidatePath_eq_ok.mpr ⟨(updateValidatePath_eq_ok.mp h).1, fun hf => by cases hf⟩

/-- **The updater takes it up**, where the longest of the names beside the install directory fits. -/
theorem HandsOver.accepted {argv : List Bytes} {a : Args} (h : HandsOver argv a) (package : Bytes → Tree)
    (temps : Bytes → List (List Bytes)) (hshort : (a.target ++ stateSuffix).length < pathMax) :
    Accepted ⟨a.target, package, temps⟩ argv a a.app := by
  have hname : ∀ x ∈ [stagingSuffix, backupSuffix, stateSuffix], (a.target ++ x).length < pathMax
      ∧ updateValidatePath (a.target ++ x) true = .ok := by
    intro x hx
    obtain ⟨hplain, hlong, hlen⟩ := suffixes_plain x hx
    have hfits : (a.target ++ x).length < pathMax := by
      rw [List.length_append] at hshort ⊢
      omega
    exact ⟨hfits, updateValidatePath_append h.target hplain hlong hfits⟩
  obtain ⟨hstaging, hstagingOk⟩ := hname stagingSuffix (by simp)
  obtain ⟨hbackup, hbackupOk⟩ := hname backupSuffix (by simp)
  obtain ⟨hstate, hstateOk⟩ := hname stateSuffix (by simp)
  refine ⟨h.parse, rfl, ?_, h.join, h.app⟩
  show updateValidateInstallPaths a.zip a.target (a.target ++ stagingSuffix) (a.target ++ backupSuffix)
    (a.target ++ stateSuffix) = .ok
  unfold updateValidateInstallPaths
  rw [updateValidatePath_relax h.zip, h.target, snprintf_eq_some.mpr ⟨hstaging, rfl⟩,
    snprintf_eq_some.mpr ⟨hbackup, rfl⟩, snprintf_eq_some.mpr ⟨hstate, rfl⟩, hstagingOk, hbackupOk, hstateOk]
  simp

/-! ## What the library starts -/

/-- The call does not fork. Only what a fork is given has to be looked at in `forks_hand_over`; every other call of
    the library is passed over with this. -/
def NoFork (o : LibOp) : Prop := ∀ path argv cwd, o ≠ .fork path argv cwd

/-- What is assumed of each call is that `getpid` gives `pid`, which is a process id; what is promised is that a
    process that is forked is given a command line that hands over, with that process id in it. -/
def handoverContract (pid : UInt32) : Contract LibOp LibOutcome LibState where
  assumes ev := ev.outcome .getpid = pid ∧ 0 < pid.toNat ∧ pid.toNat < 0x80000000
  ensures ev := ∀ path argv cwd, ev.op = .fork path argv cwd →
    updateValidatePath path true = .ok ∧ argv.head? = some path ∧ ∃ a, HandsOver argv a ∧ a.pid = pid.toNat
  invariant _ := True

section

variable {α β : Type} {pid : UInt32} {s : LibState}

/-- The part `p` of `update_perform` forks nothing, or forks with a command line that hands over, and leaves `Q`. Each
    function on the way to the spawn has a lemma of this form, and `Safe.bind` puts them together. -/
abbrev Hands (pid : UInt32) (p : LibProg α) (Q : α → Prop) (s : LibState) : Prop :=
  Safe libDevice (handoverContract pid) (fun a _ => Q a) p s

theorem hands_perform {o : LibOp} {f : LibRes o → LibProg α} {Q : α → Prop} (ho : NoFork o)
    (hf : ∀ r t, Hands pid (f r) Q t) : Hands pid (ask o >>= f) Q s :=
  fun _ _ => ⟨fun path argv cwd heq => absurd heq (ho path argv cwd), trivial, hf _ _⟩

/-- The process id on the line is the one that `getpid` answers. -/
theorem hands_getpid {f : UInt32 → LibProg α} {Q : α → Prop}
    (hf : 0 < pid.toNat → pid.toNat < 0x80000000 → ∀ t, Hands pid (f pid) Q t) : Hands pid (ask .getpid >>= f) Q s := by
  rintro e ⟨hpid, hpos, hint⟩
  refine ⟨by nofun, trivial, ?_⟩
  show Hands pid (f (e .getpid)) Q _
  have hanswer : e .getpid = pid := hpid
  rw [hanswer]
  exact hf hpos hint _

theorem hands_of_only {p : LibProg α} (hp : p.Only NoFork) : Hands pid p (fun _ => True) s := by
  induction hp generalizing s with
  | ret => trivial
  | op ho _ ih => exact fun _ _ => ⟨fun path argv cwd heq => absurd heq (ho path argv cwd), trivial, ih _⟩

theorem hands_of_asks {p : LibProg α} (hp : p.Only Asks) : Hands pid p (fun _ => True) s :=
  hands_of_only (hp.mono fun o ho path argv cwd heq => by rw [heq] at ho; exact ho)

theorem hands_seq {p : LibProg α} {f : α → LibProg β} {Q : α → Prop} {R : β → Prop} (hp : Hands pid p Q s)
    (hf : ∀ a, Q a → ∀ t, Hands pid (f a) R t) : Hands pid (p >>= f) R s :=
  Safe.bind (hp.mono fun a t ha => hf a ha t)

theorem dupStr_hands (x : Bytes) : Hands pid (dupStr x) (fun r => ∀ y, r = some y → y = x) s := by
  refine hands_perform (by nofun) fun given t => ?_
  intro y hy
  split at hy
  · exact (Option.some.inj hy).symm
  · cases hy

/-- What `update_apply_spawn` has checked of the paths before it prints the command line. It is as much as the updater
    asks of them again when it reads the command line. -/
structure PathsChecked (p : SpawnPaths) : Prop where
  inst : updateValidatePath p.instAbs true = .ok
  exe : updateValidatePath p.exePath true = .ok
  updater : updateValidatePath p.updaterPath true = .ok

theorem absolutePaths_hands (inst exe dir updater : Bytes) :
    Hands pid (absolutePaths inst exe dir updater) (fun r => ∀ p, r = some p → PathsChecked p) s := by
  have hnone : ∀ p : SpawnPaths, none = some p → PathsChecked p := by nofun
  refine hands_seq (hands_of_asks (makeAbsolute_asks inst)) fun r _ t => ?_
  split
  · exact hnone
  refine hands_seq (hands_of_asks (makeAbsolute_asks exe)) fun r _ t => ?_
  split
  · exact hnone
  refine hands_seq (hands_of_asks (makeAbsolute_asks dir)) fun r _ t => ?_
  split
  · exact hnone
  refine hands_seq (hands_of_asks (makeAbsolute_asks updater)) fun r _ t => ?_
  split
  · exact hnone
  split
  · exact hnone
  · next hchecked =>
    rintro p ⟨⟩
    simp only [Bool.or_eq_true, decide_eq_true_eq, not_or, Decidable.not_not] at hchecked
    exact ⟨hchecked.1.1, hchecked.1.2, hchecked.2⟩

theorem spawnPaths_hands (installCopy : Option Bytes) :
    Hands pid (spawnPaths installCopy) (fun r => ∀ p, r = some p → PathsChecked p) s := by
  have hnone : ∀ p : SpawnPaths, none = some p → PathsChecked p := by nofun
  refine hands_seq (hands_of_asks (platformFsGetExecutablePath_asks pathMax)) fun exe _ t => ?_
  split
  · exact hnone
  refine hands_seq (hands_of_asks (platformFsGetExecutableDir_asks pathMax)) fun dir _ t => ?_
  split
  · exact hnone
  split
  · exact absolutePaths_hands _ _ _ _
  · exact hnone

/-- The child is started in one place, with what `platform_process_spawn_with_cwd` is given. -/
theorem platformProcessSpawnWithCwd_hands (path : Bytes) (argv : List Bytes) (cwd : Bytes)
    (hline : updateValidatePath path true = .ok ∧ argv.head? = some path
      ∧ ∃ a, HandsOver argv a ∧ a.pid = pid.toNat) :
    Hands pid (platformProcessSpawnWithCwd path argv cwd) (fun _ => True) s := by
  unfold platformProcessSpawnWithCwd
  split
  · trivial
  refine hands_perform (by nofun) fun av t => ?_
  split
  case isFalse => trivial
  refine hands_seq (hands_of_asks (dupArgs_asks argv)) fun copied _ t => ?_
  split
  case isFalse => trivial
  refine hands_perform (by nofun) fun piped t => ?_
  split
  case isFalse => trivial
  refine fun _ _ => ⟨fun path' argv' cwd' heq => ?_, trivial, trivial⟩
  cases heq
  exact hline

/-- The application's own path is absolute, and is taken as it is. -/
theorem joinInstallApp_absolute {target app : Bytes} (h : updateValidatePath app true = .ok) :
    joinInstallApp target app = some app := by
  obtain ⟨hok, habs⟩ := updateValidatePath_eq_ok.mp h
  have hhead : app.head? = some (ch '/') := by simpa [pathIsAbsolute] using habs rfl
  rw [joinInstallApp, if_pos hhead, snprintf_eq_some]
  exact ⟨hok.short, rfl⟩

theorem nonempty_of_ok {path : Bytes} {absolute : Bool} (h : updateValidatePath path absolute = .ok) : path ≠ [] :=
  (updateValidatePath_eq_ok.mp h).1.nonempty

theorem spawnUpdater_hands {pkgCopy : Bytes} (hpkg : updateValidatePath pkgCopy true = .ok)
    (installCopy : Option Bytes) : Hands pid (spawnUpdater pkgCopy installCopy) (fun _ => True) s := by
  refine hands_seq (spawnPaths_hands installCopy) fun paths hpaths t => ?_
  cases paths with
  | none => trivial
  | some p =>
      obtain ⟨hinst, hexe, hupdater⟩ := hpaths p rfl
      refine hands_getpid fun hpos hint t => ?_
      split
      · trivial
      · next pidBuf hbuf =>
        rw [(snprintf_eq_some.mp hbuf).2]
        have hparse := parseArgs_spawnArgv p (nonempty_of_ok hpkg) (nonempty_of_ok hinst) (nonempty_of_ok hexe)
          hpos hint
        have hline : HandsOver (spawnArgv p pkgCopy (pidText pid)) ⟨pkgCopy, p.instAbs, pid.toNat, p.exePath⟩ :=
          ⟨hparse, hpkg, hinst, hexe, joinInstallApp_absolute hexe, rfl, rfl, ⟨pid, rfl, rfl⟩, rfl⟩
        exact platformProcessSpawnWithCwd_hands _ _ _ ⟨hupdater, rfl, _, hline, rfl⟩

theorem updateApplySpawn_hands (packagePath : Bytes) :
    Hands pid (updateApplySpawn packagePath) (fun _ => True) s := by
  refine hands_perform (by nofun) fun ctx t => ?_
  split
  · trivial
  refine hands_seq (hands_of_asks (dupInstallDir_asks ctx)) fun given _ t => ?_
  split
  case isFalse => trivial
  refine hands_seq (hands_of_asks (makeAbsolute_asks packagePath)) fun pkgAbs _ t => ?_
  split
  · trivial
  next pkgAbs =>
  split
  · trivial
  next hpkg =>
  refine hands_seq (dupStr_hands pkgAbs) fun pkgCopy hcopy t => ?_
  split
  · trivial
  next pkgCopy =>
  rw [hcopy pkgCopy rfl]
  refine hands_seq (hands_of_asks (installTarget_asks ctx)) fun installCopy _ t => ?_
  split
  · trivial
  · exact spawnUpdater_hands (Decidable.not_not.mp hpkg) _

theorem createWorkdir_only (base : Bytes) (attempt : UInt64) (left : Nat) :
    (createWorkdir base attempt left).Only NoFork := by
  induction left generalizing attempt with
  | zero => exact .ret
  | succ left ih =>
      refine .perform (by nofun) fun now => ?_
      refine .perform (by nofun) fun pid => ?_
      split
      · exact .ret
      refine .perform (by nofun) fun made => ?_
      split
      · exact .ret
      · exact ih _

theorem removeAttempts_only (path : Bytes) (left : Nat) : (removeAttempts path left).Only NoFork := by
  induction left with
  | zero => exact .ret
  | succ left ih =>
      refine .perform (by nofun) fun gone => ?_
      split
      · exact .ret
      · exact ih

theorem abandon_only (workdir : Bytes) : (abandon workdir).Only NoFork := by
  refine .bind ?_ fun _ => .ret
  unfold Perform.updateRemoveTree
  split
  · exact .ret
  · exact removeAttempts_only workdir 16

theorem abandonPackage_only (workdir zipPath : Bytes) : (abandonPackage workdir zipPath).Only NoFork :=
  .perform (by nofun) fun _ => abandon_only workdir

theorem performSpawn_hands (workdir zipPath : Bytes) : Hands pid (performSpawn workdir zipPath) (fun _ => True) s := by
  refine hands_seq (updateApplySpawn_hands zipPath) fun spawned _ t => ?_
  split
  · trivial
  · exact hands_of_only (abandon_only workdir)

theorem performSignature_hands (workdir zipPath : Bytes) :
    Hands pid (performSignature workdir zipPath) (fun _ => True) s := by
  refine hands_perform (by nofun) fun ctx t => ?_
  split
  · exact performSpawn_hands workdir zipPath
  refine hands_perform (by nofun) fun answer t => ?_
  split
  · exact hands_of_only (abandonPackage_only workdir zipPath)
  · exact performSpawn_hands workdir zipPath

theorem performDownload_hands (fuel : Nat) (info : UpdateInfo) (workdir zipPath : Bytes) :
    Hands pid (performDownload fuel info workdir zipPath) (fun _ => True) s := by
  refine hands_seq (dupStr_hands _) fun dlUrl _ t => ?_
  refine hands_seq (dupStr_hands _) fun checksumCopy _ t => ?_
  split
  · refine hands_perform (by nofun) fun downloaded t => ?_
    split
    · refine hands_seq (hands_of_asks (updateVerify_asks fuel zipPath _)) fun verified _ t => ?_
      split
      · trivial
      · exact performSignature_hands workdir zipPath
      · exact hands_of_only (abandonPackage_only workdir zipPath)
    · exact hands_of_only (abandon_only workdir)
  · exact hands_of_only (abandon_only workdir)

theorem updatePerform_hands (fuel : Nat) (version : Bytes) :
    Hands pid (updatePerform fuel version) (fun _ => True) s := by
  refine hands_seq (hands_of_asks (updateCheck_asks fuel version .zero)) fun checked _ t => ?_
  split
  · trivial
  · refine hands_perform (by nofun) fun ctx t => ?_
    split
    case isFalse => trivial
    refine hands_seq (hands_of_asks (tempBase_asks ctx)) fun base _ t => ?_
    split
    · trivial
    refine hands_seq (hands_of_only (createWorkdir_only _ 0 8)) fun made _ t => ?_
    split
    · trivial
    unfold performIn
    split
    · exact hands_of_only (abandon_only _)
    · split
      · exact hands_of_only (abandon_only _)
      · exact performDownload_hands fuel _ _ _
  · trivial
  · trivial

/-- What is started, is started well: the program is the one that the command line names first, and the command
    line is one that the updater takes up, with the paths and the process id that the library has written. -/
def StartedWell (pid : UInt32) (path : Bytes) (argv : List Bytes) : Prop :=
  updateValidatePath path true = .ok ∧ argv.head? = some path ∧ ∃ a, HandsOver argv a ∧ a.pid = pid.toNat
    ∧ ∀ package temps, (a.target ++ stateSuffix).length < pathMax →
      Accepted ⟨a.target, package, temps⟩ argv a a.app

theorem startedWell_of_hands {p : LibProg α} {Q : α → Prop} (hp : Hands pid p Q s) (hpos : 0 < pid.toNat)
    (hint : pid.toNat < 0x80000000) {es : List LibOutcome} (hpid : ∀ e ∈ es, e .getpid = pid)
    {ev : Event LibOp LibOutcome LibState} (hev : ev ∈ (libDevice.run p es s).events) {path cwd : Bytes}
    {argv : List Bytes} (hop : ev.op = .fork path argv cwd) : StartedWell pid path argv := by
  have hassumes : ∀ ev ∈ (libDevice.run p es s).events, (handoverContract pid).assumes ev :=
    fun ev hev => ⟨hpid _ (libDevice.outcome_mem hev), hpos, hint⟩
  obtain ⟨hpath, hhead, a, ha, haPid⟩ := ((hp.run_sound hassumes).1 ev hev).1 path argv cwd hop
  exact ⟨hpath, hhead, a, ha, haPid, fun package temps hshort => ha.accepted package temps hshort⟩

end

/-- **What is started is taken up.** Whatever the environment answers and wherever the run is cut off: each
    process that `update_perform` or `update_apply` forks is given a command line that `parse_args` reads back as
    the package, the install directory, the process id and the application that were written, all of them paths
    that the updater accepts; `main` comes to its work wherever the names beside the install directory fit. -/
theorem forks_hand_over (pid : UInt32) (hpos : 0 < pid.toNat) (hint : pid.toNat < 0x80000000)
    (es : List LibOutcome) (hpid : ∀ e ∈ es, e .getpid = pid) (s : LibState) (path : Bytes) (argv : List Bytes)
    (cwd : Bytes) :
    (∀ fuel version, ∀ ev ∈ (libDevice.run (updatePerform fuel version) es s).events,
        ev.op = .fork path argv cwd → StartedWell pid path argv)
      ∧ ∀ packagePath, ∀ ev ∈ (libDevice.run (updateApplySpawn packagePath) es s).events,
        ev.op = .fork path argv cwd → StartedWell pid path argv := by
  constructor
  · intro fuel version ev hev hop
    exact startedWell_of_hands (updatePerform_hands fuel version) hpos hint hpid hev hop
  · intro packagePath ev hev hop
    exact startedWell_of_hands (updateApplySpawn_hands packagePath) hpos hint hpid hev hop

/-- A child that a trace shows comes from a fork. -/
theorem fork_of_forked {r : Run LibOp LibOutcome LibState (Option UpdateStatus)} {path cwd : Bytes}
    {argv : List Bytes} {child : Child} (h : Act.forked path argv cwd child ∈ r.trace actsOf) :
    ∃ ev ∈ r.events, ev.op = .fork path argv cwd := by
  obtain ⟨ev, hev, hact⟩ := List.mem_flatMap.mp h
  refine ⟨ev, hev, ?_⟩
  obtain ⟨op, e, s⟩ := ev
  cases op with
  | fork path' argv' cwd' =>
      simp only [actsOf] at hact
      split at hact
      · cases hact
      · cases List.mem_singleton.mp hact
        rfl
  | locked sec => cases List.mem_singleton.mp hact
  | fetch url =>
      obtain ⟨body, _, heq⟩ := Option.map_eq_some_iff.mp (Option.mem_toList.mp hact)
      cases heq
  | createDirectory dir =>
      simp only [actsOf] at hact
      split at hact
      · cases List.mem_singleton.mp hact
      · cases hact
  | streamDownload url file =>
      simp only [actsOf] at hact
      split at hact
      · split at hact
        · cases List.mem_singleton.mp hact
        · cases hact
      · cases hact
  | readFile file =>
      simp only [actsOf] at hact
      split at hact
      · cases List.mem_singleton.mp hact
      · cases hact
  | verifySignature v file => cases List.mem_singleton.mp hact
  | malloc | manifestMemory | getenvTmpdir | time | getpid | removePath | getcwd | readlinkExe | pipe => cases hact

/-! ## The two programs -/

namespace Sys

namespace Setting

/-- The paths that are handed over lead somewhere. -/
theorem extractDest_isSome {argv : List Bytes} {a : Args} (h : HandsOver argv a) (cwd : Option Bytes)
    (hshort : (a.target ++ stateSuffix).length < pathMax) :
    (extractDest cwd a.zip (a.target ++ stagingSuffix)).isSome = true := by
  have hpaths := updateValidateInstallPaths_ok (h.accepted (fun _ => []) (fun _ => []) hshort).paths
  have hstaging : updateValidatePath (a.target ++ stagingSuffix) true = .ok := hpaths.staging
  have habsolute : ∀ path : Bytes, updateValidatePath path true = .ok →
      updatePathMakeAbsolute cwd path pathMax = some path := by
    intro path hpath
    obtain ⟨hok, _⟩ := updateValidatePath_eq_ok.mp hpath
    exact updatePathMakeAbsolute_self hpath hok.short cwd
  unfold extractDest
  rw [habsolute _ h.zip, habsolute _ hstaging, updateValidatePath_relax h.zip, updateValidatePath_relax hstaging]
  simp [nonempty_of_ok h.zip, nonempty_of_ok hstaging, h.zip, hstaging]

/-- The setting of an updater on a file system that is there: its packages are the files, and `unzip` is what miniz
    makes of their contents. So the package that the updater extracts is the file that the library has downloaded. -/
def onVolume (installDir : Bytes) (cwd : Option Bytes) (unzip : Bytes → Option (List Entry)) (t : Fs) : Setting :=
  ⟨installDir, cwd, fun zip => (dataAt t (fsPath zip)).bind unzip⟩

end Setting

/-- The program and the command line that an act gives to a child, if it forks one: by this `update_goes_through`
    gets from a run of the library to the runs of the updater. -/
def lineOf : Act → Option (Bytes × List Bytes)
  | .forked path argv _ _ => some (path, argv)
  | _ => none

/-- What the sample run of `update_perform` writes. -/
def abcLine : List Bytes :=
  [ascii "/a/updater", ascii "--install", ascii "/tmp/libupdate_1000000/package.bin", ascii "--target", ascii "/a",
    ascii "--pid", ascii "1", ascii "--app", ascii "/a/app"]

theorem abcRun_lines : (abcRun.trace actsOf).filterMap lineOf = [(ascii "/a/updater", abcLine)] := by
  decide +kernel

theorem lineOf_mem {path cwd : Bytes} {argv : List Bytes} {child : Child}
    (h : Act.forked path argv cwd child ∈ abcRun.trace actsOf) : path = ascii "/a/updater" ∧ argv = abcLine := by
  have hline : (path, argv) ∈ (abcRun.trace actsOf).filterMap lineOf := List.mem_filterMap.mpr ⟨_, h, rfl⟩
  rw [abcRun_lines, List.mem_singleton] at hline
  exact Prod.mk.inj hline

/-- Nothing happens in the sample run that the pipe cannot show. -/
theorem abcRun_heard (path : Bytes) (argv : List Bytes) (dir : Bytes) (child : Child)
    (h : Act.forked path argv dir child ∈ abcRun.trace actsOf) :
    Spawn.EndsAs Spawn.heard (spawnCall path argv dir false) child := by
  obtain ⟨rfl, rfl⟩ := lineOf_mem h
  have hon : (ascii "/tmp/libupdate_1000000/package.bin", child) ∈ (abcRun.trace actsOf).filterMap Act.forkedOn :=
    List.mem_filterMap.mpr ⟨_, h, rfl⟩
  rw [abcRun_started.2.2, List.mem_singleton] at hon
  obtain rfl : child = .running := congrArg Prod.snd hon
  exact Spawn.endsAs_heard (by rw [spawnCall_refused]; decide +kernel) rfl

theorem forks_hand_over_sample : StartedWell 1 (ascii "/a/updater") abcLine := by
  have hline : (ascii "/a/updater", abcLine) ∈ (abcRun.trace actsOf).filterMap lineOf := by
    rw [abcRun_lines]
    exact List.mem_singleton_self _
  obtain ⟨act, hact, hlineOf⟩ := List.mem_filterMap.mp hline
  cases act with
  | forked path argv cwd child =>
      cases hlineOf
      obtain ⟨ev, hev, hop⟩ := fork_of_forked hact
      exact (forks_hand_over 1 (by decide) (by decide) (.replicate 40 abcOutcome)
        (fun e he => by rw [List.eq_of_mem_replicate he]; rfl) pinnedState _ _ cwd).1 8 (ascii "1.9") ev hev hop
  | _ => cases hlineOf

/-- The archive of the sample: one file. -/
def abcUnzip (content : Bytes) : Option (List Entry) :=
  if content = ascii "abc" then some [⟨true, 0, ascii "app", false, 0, ascii "2"⟩] else none

/-- The application before its update, with the package that has been downloaded. -/
def abcVolume : Volume :=
  ((((Volume.empty.put (ascii "/a") .dir (by decide +kernel)).put (ascii "/a/app") (.file ⟨ascii "1", 0o755⟩)
    (by decide +kernel)).put (ascii "/tmp") .dir (by decide +kernel)).put (ascii "/tmp/libupdate_1000000") .dir
    (by decide +kernel)).put (ascii "/tmp/libupdate_1000000/package.bin") (.file ⟨ascii "abc", 0o644⟩)
    (by decide +kernel)

theorem parseArgs_abcLine :
    parseArgs abcLine = some ⟨ascii "/tmp/libupdate_1000000/package.bin", ascii "/a", 1, ascii "/a/app"⟩ := by
  decide +kernel

theorem abcVolume_updatable : (Setting.onVolume (ascii "/a") none abcUnzip abcVolume.1).Updatable
    (ascii "/tmp/libupdate_1000000/package.bin") abcVolume.1 where
  last := by decide +kernel
  reads := by decide +kernel
  ready := {
    parent := by decide +kernel
    places := fun p => by cases p <;> decide +kernel
    files := by decide +kernel }
  fits p := by
    refine Setting.fitsAt_of_forall ?_
    cases p <;> decide +kernel
  installed := by decide +kernel
  fresh := by decide +kernel

end Sys

end LibUpdate
