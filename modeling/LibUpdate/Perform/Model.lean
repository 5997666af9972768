import LibUpdate.Perform.Device
import LibUpdate.Perform.Digest
import LibUpdate.Remote.Version

/-!
# `Perform.Model` — checking, downloading, verifying and starting the updater (`update.c`, POSIX build)

`updatePerform` is `update_perform`, with the functions it calls, as a program over the device. `version` is
`UPDATE_APP_VERSION_STRING`. `fuel` bounds the loops that need not end; a program that returns `none` has not
come back. The progress callbacks observe and are left out.
-/

namespace LibUpdate

def dupStr (s : Bytes) : LibProg (Option Bytes) := do
  let given ← ask (.malloc (s.length + 1))
  pure (if given then some s else none)

/-! ## `update_check` -/

/-- What `update_remote_check` makes of a manifest that was parsed. -/
def judgeVersion (version : Bytes) (out : UpdateInfo) : UpdateStatus × UpdateInfo :=
  let newer := remoteVersionIsNewer (cstr out.version.toList) version
  if newer < 0 then (.error, updateInfoFree out)
  else if newer = 0 then (.notAvailable, out)
  else (.available, out)

/-- `update_remote_check`. -/
def updateRemoteCheck (fuel : Nat) (version url : Bytes) : LibProg (Option (UpdateStatus × UpdateInfo)) :=
  if url = [] then pure (some (.error, .zero))
  else do
    let fetched ← ask (.fetch url)
    match fetched with
    | none => pure (some (.error, .zero))
    | some body =>
        let alloc ← ask .manifestMemory
        match updateManifestParse alloc fuel (cstr body) with
        | none => pure none
        | some (rc, out) => if rc ≠ 0 then pure (some (.error, out)) else pure (some (judgeVersion version out))

/-- `update_check`: the status and what it leaves in `*out`. A library that is not initialised leaves it as it was. -/
def updateCheck (fuel : Nat) (version : Bytes) (out : UpdateInfo) :
    LibProg (Option (UpdateStatus × UpdateInfo)) := do
  let ctx ← ask (.locked .updateCheck)
  if ctx.initialized then
    -- the URL is copied in the section, since a shutdown may free it afterwards
    match ctx.updateUrl with
    | none => pure (some (.error, .zero))
    | some url =>
        let urlCopy ← dupStr url
        match urlCopy with
        | none => pure (some (.error, .zero))
        | some urlCopy => updateRemoteCheck fuel version urlCopy
  else pure (some (.error, out))

/-! ## `update_verify` -/

/-- `update_verify`. -/
def updateVerify (fuel : Nat) (file expectedHash : Bytes) : LibProg (Option UpdateStatus) :=
  if file = [] || expectedHash = [] then pure (some .error)
  else
    match parseSha256Hex expectedHash with
    | none => pure (some .error)
    | some expectBin => do
        let contents ← ask (.readFile file)
        match contents with
        | none => pure (some .error)
        | some (data, ferror) =>
            match hashBlocks fuel data with
            | none => pure none
            | some ctx =>
                -- an error of the stream is looked at behind the loop only
                if ferror then pure (some .error)
                else if sha256DigestEqualsCt (Sha256.sha256Final ctx (.replicate 32 0)) expectBin ≠ 0 then
                  pure (some .error)
                else pure (some .ok)

/-! ## The work directory -/

/-- The loop of `platform_fs_get_system_temp_dir` over trailing separators: the first byte stays. -/
def stripTrailingSlashes (td : Bytes) : Bytes :=
  td.take 1 ++ ((td.drop 1).reverse.dropWhile isPathSep).reverse

/-- `platform_fs_get_system_temp_dir`. -/
def platformFsGetSystemTempDir (outSize : Nat) : LibProg (Option Bytes) := do
  let env ← ask .getenvTmpdir
  let td := if holdsText env then env.getD [] else ascii "/tmp"
  pure (if td.length + 1 > outSize then none else some (stripTrailingSlashes td))

/-- The directory in which `update_perform` makes its work directory. -/
def tempBase (ctx : UpdateContext) : LibProg (Option Bytes) :=
  if holdsText ctx.tempDir then do
    let tempOverride ← dupStr (ctx.tempDir.getD [])
    pure (tempOverride.bind (snprintf pathMax))
  else platformFsGetSystemTempDir pathMax

/-- `%llx`. -/
def hexText (n : UInt64) : Bytes := (Nat.toDigits 16 n.toNat).map ch

/-- `"%s/libupdate_%llx"`. -/
def workdirName (tempBase : Bytes) (tag : UInt64) : Bytes := tempBase ++ ascii "/libupdate_" ++ hexText tag

/-- The attempts at creating the work directory that are left. -/
def createWorkdir (tempBase : Bytes) (attempt : UInt64) : Nat → LibProg (Option Bytes)
  | 0 => pure none
  | left + 1 => do
      let now ← ask .time
      let pid ← ask .getpid
      -- the tag of an attempt: the time and the process id, and the number of the attempt
      match snprintf pathMax (workdirName tempBase ((now ^^^ pid.toUInt64 <<< 24) + attempt)) with
      | none => pure none
      | some workdir =>
          let made ← ask (.createDirectory workdir)
          -- a directory that is there already is taken as it is
          if made then pure (some workdir) else createWorkdir tempBase (attempt + 1) left

/-- The attempts of `update_remove_tree` that are left. The pauses between them are left out. -/
def removeAttempts (path : Bytes) : Nat → LibProg UpdateStatus
  | 0 => pure .error
  | left + 1 => do
      let gone ← ask (.removePath path)
      if gone then pure .ok else removeAttempts path left

/-- `update_remove_tree`. -/
def Perform.updateRemoveTree (path : Bytes) : LibProg UpdateStatus :=
  if path = [] then pure .error else removeAttempts path 16

/-! ## `platform_process_spawn_with_cwd` -/

/-- Copies the arguments for the child. -/
def dupArgs : List Bytes → LibProg Bool
  | [] => pure true
  | arg :: args => do
      let given ← ask (.malloc (arg.length + 1))
      if given then dupArgs args else pure false

/-- `platform_process_spawn_with_cwd`: whether it gives `PLATFORM_OK`. -/
def platformProcessSpawnWithCwd (path : Bytes) (argv : List Bytes) (cwd : Bytes) : LibProg Bool :=
  if path = [] || argv = [] then pure false
  else do
    let av ← ask (.malloc ((argv.length + 1) * 8))
    if av then
      let copied ← dupArgs argv
      if copied then
        let piped ← ask .pipe
        if piped then
          let child ← ask (.fork path argv cwd)
          -- the end of the file is taken for a program that has started
          pure child.endOfFile
        else pure false
      else pure false
    else pure false

/-! ## `update_apply_spawn` -/

/-- `update_path_make_absolute`: only a relative path needs the working directory. -/
def makeAbsolute (path : Bytes) : LibProg (Option Bytes) :=
  if pathIsAbsolute path then pure (updatePathMakeAbsolute none path pathMax)
  else do
    let cwd ← ask .getcwd
    pure (updatePathMakeAbsolute cwd path pathMax)

/-- `platform_fs_get_executable_path`: a longer path is cut. -/
def platformFsGetExecutablePath (outSize : Nat) : LibProg (Option Bytes) := do
  let link ← ask .readlinkExe
  pure (link.map fun l => cstr (l.take (outSize - 1)))

/-- `strip_filename_posix`; `none` is an error. -/
def stripFilenamePosix (path : Bytes) : Option Bytes :=
  if path = [] then none
  else
    let upTo := (path.reverse.dropWhile fun c => !isPathSep c).reverse
    -- the root keeps its separator
    if upTo.length ≤ 1 then some upTo else some upTo.dropLast

/-- `platform_fs_get_executable_dir`. -/
def platformFsGetExecutableDir (outSize : Nat) : LibProg (Option Bytes) := do
  let path ← platformFsGetExecutablePath outSize
  pure (path.bind stripFilenamePosix)

/-- The copy of the install directory, made absolute; `some none` where none is configured. -/
def installTarget (ctx : UpdateContext) : LibProg (Option (Option Bytes)) :=
  if holdsText ctx.installDir then do
    let installTmp ← makeAbsolute (ctx.installDir.getD [])
    match installTmp with
    | none => pure none
    | some installTmp =>
        let installCopy ← dupStr installTmp
        pure (installCopy.map some)
  else pure (some none)

/-- The paths that the updater is started with. -/
structure SpawnPaths where
  instAbs : Bytes
  exePath : Bytes
  exeDir : Bytes
  updaterPath : Bytes

/-- Makes the four paths absolute, in turn, and checks three of them. -/
def absolutePaths (instAbs exePath exeDir updaterPath : Bytes) : LibProg (Option SpawnPaths) := do
  let inst ← makeAbsolute instAbs
  match inst.bind (snprintf pathMax) with
  | none => pure none
  | some instAbs =>
      let exe ← makeAbsolute exePath
      match exe.bind (snprintf pathMax) with
      | none => pure none
      | some exePath =>
          let dir ← makeAbsolute exeDir
          match dir.bind (snprintf pathMax) with
          | none => pure none
          | some exeDir =>
              let updater ← makeAbsolute updaterPath
              match updater.bind (snprintf pathMax) with
              | none => pure none
              | some updaterPath =>
                  -- the directory of the executable is not checked
                  if updateValidatePath instAbs true ≠ .ok || updateValidatePath exePath true ≠ .ok
                      || updateValidatePath updaterPath true ≠ .ok then pure none
                  else pure (some ⟨instAbs, exePath, exeDir, updaterPath⟩)

/-- The paths, from the configured install directory, or else from the directory of the executable. -/
def spawnPaths (installCopy : Option Bytes) : LibProg (Option SpawnPaths) := do
  let exe ← platformFsGetExecutablePath pathMax
  match exe with
  | none => pure none
  | some exePath =>
      let dir ← platformFsGetExecutableDir pathMax
      match dir with
      | none => pure none
      | some exeDir =>
          match snprintf pathMax (installCopy.getD exeDir), snprintf pathMax (exeDir ++ ascii "/updater") with
          | some instAbs, some updaterPath => absolutePaths instAbs exePath exeDir updaterPath
          | _, _ => pure none

/-- `"%d"` of a process id. -/
def pidText (pid : UInt32) : Bytes := (Nat.toDigits 10 pid.toNat).map ch

/-- `spawn_argv`. -/
def spawnArgv (p : SpawnPaths) (pkgCopy pidBuf : Bytes) : List Bytes :=
  [p.updaterPath, ascii "--install", pkgCopy, ascii "--target", p.instAbs, ascii "--pid", pidBuf, ascii "--app",
    p.exePath]

/-- `update_apply_spawn` from the point where the package path is copied. -/
def spawnUpdater (pkgCopy : Bytes) (installCopy : Option Bytes) : LibProg Bool := do
  let paths ← spawnPaths installCopy
  match paths with
  | none => pure false
  | some p =>
      let pid ← ask .getpid
      match snprintf 32 (pidText pid) with
      | none => pure false
      | some pidBuf => platformProcessSpawnWithCwd p.updaterPath (spawnArgv p pkgCopy pidBuf) p.exeDir

/-- The copy of the install directory that is made in the section: whether it is made where one is configured. -/
def dupInstallDir (ctx : UpdateContext) : LibProg Bool :=
  if holdsText ctx.installDir then ask (.malloc ((ctx.installDir.getD []).length + 1)) else pure true

/-- `update_apply_spawn`: whether it returns 0. -/
def updateApplySpawn (packagePath : Bytes) : LibProg Bool := do
  let ctx ← ask (.locked .updateApplySpawn)
  if !ctx.initialized || packagePath = [] || updateValidatePath packagePath false ≠ .ok then pure false
  else
    let installGiven ← dupInstallDir ctx
    if installGiven then
      let pkgAbs ← makeAbsolute packagePath
      match pkgAbs with
      | none => pure false
      | some pkgAbs =>
          if updateValidatePath pkgAbs true ≠ .ok then pure false
          else
            let pkgCopy ← dupStr pkgAbs
            match pkgCopy with
            | none => pure false
            | some pkgCopy =>
                let installCopy ← installTarget ctx
                match installCopy with
                | none => pure false
                | some installCopy => spawnUpdater pkgCopy installCopy
    else pure false

/-! ## `update_perform` -/

/-- Removes the work directory and fails. -/
def abandon (workdir : Bytes) : LibProg (Option UpdateStatus) := do
  let _ ← Perform.updateRemoveTree workdir
  pure (some .error)

/-- Removes the package, then the work directory, and fails. -/
def abandonPackage (workdir zipPath : Bytes) : LibProg (Option UpdateStatus) := do
  let _ ← ask (.removePath zipPath)
  abandon workdir

/-- `update_perform` from the verified package on: the updater. -/
def performSpawn (workdir zipPath : Bytes) : LibProg (Option UpdateStatus) := do
  let spawned ← updateApplySpawn zipPath
  if spawned then pure (some .started) else abandon workdir

/-- `update_perform` from the checksum on: the signature. -/
def performSignature (workdir zipPath : Bytes) : LibProg (Option UpdateStatus) := do
  let ctx ← ask (.locked .signatureCb)
  match ctx.verifier with
  -- without a verifier the checksum is the only test
  | none => performSpawn workdir zipPath
  | some sig =>
      let answer ← ask (.verifySignature sig zipPath)
      if answer ≠ 0 then abandonPackage workdir zipPath else performSpawn workdir zipPath

/-- `update_perform` from the package path on: the download and its checksum. -/
def performDownload (fuel : Nat) (info : UpdateInfo) (workdir zipPath : Bytes) :
    LibProg (Option UpdateStatus) := do
  let dlUrl ← dupStr (cstr info.downloadUrl.toList)
  let checksumCopy ← dupStr (cstr info.checksum.toList)
  match dlUrl, checksumCopy with
  | some dlUrl, some checksumCopy =>
      let downloaded ← ask (.streamDownload dlUrl zipPath)
      if downloaded then
        let verified ← updateVerify fuel zipPath checksumCopy
        match verified with
        | none => pure none
        -- the checksum is that of the manifest; the pinned digest is not looked at
        | some .ok => performSignature workdir zipPath
        | some _ => abandonPackage workdir zipPath
      else abandon workdir
  | _, _ => abandon workdir

/-- `update_perform` from the work directory on. -/
def performIn (fuel : Nat) (info : UpdateInfo) (tempBase workdir : Bytes) : LibProg (Option UpdateStatus) :=
  match snprintf (pathMax + 32) (workdir ++ ascii "/package.bin") with
  | none => abandon workdir
  | some zipPath =>
      if updateValidatePath tempBase true ≠ .ok || updateValidatePath workdir true ≠ .ok
          || updateValidatePath zipPath true ≠ .ok then abandon workdir
      else performDownload fuel info workdir zipPath

/-- `update_perform` from the check on, where an update is available. -/
def performAvailable (fuel : Nat) (info : UpdateInfo) : LibProg (Option UpdateStatus) := do
  let ctx ← ask (.locked .updatePerform)
  if ctx.initialized then
    let base ← tempBase ctx
    match base with
    | none => pure (some .error)
    | some base =>
        let made ← createWorkdir base 0 8
        match made with
        | none => pure (some .error)
        | some workdir => performIn fuel info base workdir
  else pure (some .error)

/-- `update_perform`. -/
def updatePerform (fuel : Nat) (version : Bytes) : LibProg (Option UpdateStatus) := do
  -- the record has no value yet; it is read only where the check has given it one
  let checked ← updateCheck fuel version .zero
  match checked with
  | none => pure none
  | some (.available, info) => performAvailable fuel info
  | some (.notAvailable, _) => pure (some .noop)
  | some _ => pure (some .error)

end LibUpdate
