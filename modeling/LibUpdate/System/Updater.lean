import LibUpdate.Extract.Model
import LibUpdate.System.Remove
import LibUpdate.Updater.Main

/-!
# `System.Updater` — the updater as a program over system calls (`update_ops.c`, `update_state.c`, `main.c`)

`Updater.Main` has `main` as a program over steps on three directories. Here each of these steps is the program that
carries it out, and `Sys.updaterMain` is `main` with all of them put in: every call that the updater makes, one by
one.
-/

namespace LibUpdate

namespace Sys

/-! ## `update_ops.c` -/

/-- The attempts of `update_move_path`. -/
def moveAttempts (src dst : Bytes) : Nat → SysProg UpdateStatus
  | 0 => pure .error
  | n + 1 => do
      let moved ← ask (.rename src dst)
      if moved then pure .ok else moveAttempts src dst n

/-- `update_move_path`. -/
def updateMovePath (src dst : Bytes) : SysProg UpdateStatus :=
  if src = [] || dst = [] then pure .error else moveAttempts src dst 20

/-- `update_wait_for_parent_exit`. -/
def updateWaitForParentExit (pid : Int) : SysProg UpdateStatus :=
  if pid ≤ 0 then pure .error
  else do
    let gone ← ask (.awaitExit pid)
    pure (if gone then .ok else .error)

/-- `update_relaunch_app`. -/
def updateRelaunchApp (app : Bytes) : SysProg UpdateStatus :=
  if app = [] then pure .error
  else if updateValidatePath app true ≠ .ok then pure .error
  else do
    let started ← ask (.spawn app)
    pure (if started then .ok else .error)

/-! ## `update_state.c` -/

def pathIsDir (path : Bytes) : SysProg Bool := ask (.io (.stat path))

/-- `updater_state_load`. -/
def updaterStateLoad (statePath : Bytes) : SysProg StateLoad := do
  let read ← ask (.readFile statePath)
  match read with
  | none => pure .missing
  | some none => pure .error
  | some (some bytes) => pure (LibUpdate.updaterStateLoad (some bytes))

/-- Removes the file that a state was to be prepared in, and gives up. -/
def dropPart (tmp : Bytes) : SysProg UpdateStatus := do
  let _ ← ask (.io (.remove tmp))
  pure .error

/-- `updater_state_save_atomic`. What `fputs` and `fputc` write is in the buffer of the stream, and may be in the
    file, until `fclose` says that it is there. -/
def updaterStateSaveAtomic (statePath phase installDir staging backup package : Bytes) : SysProg UpdateStatus :=
  match snprintf (pathMax + 32) (statePath ++ ascii ".part") with
  | none => pure .error
  | some tmp => do
      let opened ← ask (.io (.fopenWrite tmp))
      if opened then
        let _ ← ask (.io (.fwrite tmp (stateText phase installDir staging backup package)))
        let closed ← ask (.io (.fclose tmp (some (stateText phase installDir staging backup package))))
        if closed then
          let moved ← updateMovePath tmp statePath
          if moved = .ok then pure .ok else dropPart tmp
        else dropPart tmp
      else pure .error

/-- `updater_state_remove`. -/
def updaterStateRemove (statePath : Bytes) : SysProg Unit := do
  let _ ← updateRemoveTree statePath
  pure ()

/-! ## `update_extract.c` -/

/-- `update_extract`, with the removals of temporary files call by call. -/
def updateExtract (cwd : Option Bytes) (archive : Option (List Entry)) (zipPath destDir : Bytes) :
    SysProg UpdateStatus := (LibUpdate.updateExtract cwd archive zipPath destDir).expand fsCall

/-! ## `main.c` -/

/-- What the updater works with: the directory that is updated, the current directory, and what miniz finds in
    each package. -/
structure Setting where
  installDir : Bytes
  cwd : Option Bytes
  archive : Bytes → Option (List Entry)

namespace Setting

variable (w : Setting)

/-- The paths that `main` prints. -/
def placePath : Place → Bytes
  | .install => w.installDir
  | .staging => w.installDir ++ stagingSuffix
  | .backup => w.installDir ++ backupSuffix

/-- `updater_state_build_path`. -/
def statePath : Bytes := w.installDir ++ stateSuffix

/-- What carries out a step of `main`: the function of the library that `main` calls there, with its arguments as
    `main` builds them. -/
def carryOut : (o : LibUpdate.Op) → SysProg (LibUpdate.Res o)
  | .loadState => updaterStateLoad w.statePath
  | .removeState => updaterStateRemove w.statePath
  | .isDir p => pathIsDir (w.placePath p)
  | .waitParent pid => updateWaitForParentExit pid
  | .removeTree p => updateRemoveTree (w.placePath p)
  | .extract zip => updateExtract w.cwd (w.archive zip) zip (w.placePath .staging)
  | .saveState phase zip => updaterStateSaveAtomic w.statePath phase.text w.installDir (w.placePath .staging)
      (w.placePath .backup) zip
  | .move src dst => updateMovePath (w.placePath src) (w.placePath dst)
  | .relaunch app => updateRelaunchApp app

end Setting

/-- `main`, call by call. -/
def updaterMain (cwd : Option Bytes) (archive : Bytes → Option (List Entry)) (argv : List Bytes) : SysProg Exit :=
  match parseArgs argv with
  | none => pure .error
  | some a => (LibUpdate.updaterMain a).expand (Setting.carryOut ⟨a.target, cwd, archive⟩)

end Sys

end LibUpdate
