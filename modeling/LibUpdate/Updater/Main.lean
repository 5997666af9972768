import LibUpdate.Foundation.FileTree
import LibUpdate.Foundation.Prog
import LibUpdate.Updater.State

/-!
# `Updater.Main` — one run of the updater (`main.c`)

A run works on three directories beside each other (install, staging, backup) and on the state file.
Each call that touches them is one operation of a device (`updaterDevice`): a move is one `rename` and
either happens or does not; a removal and an extraction can stop half-way; a state save leaves either
the new file or the old one. `updaterMain` is the program of `main` after its arguments are parsed, one
definition for each resume point.
-/

namespace LibUpdate

/-! ## The disk -/

/-- What a directory holds: the contents of its files, by their path. -/
abbrev Tree := FileTree Bytes Bytes

instance : DecidableEq (Option Tree) := inferInstance

/-- The three directories of an installation. -/
inductive Place where
  | install
  | staging
  | backup
  deriving DecidableEq, Repr

/-- The three directories (`none`: not there), the state file and its `.part` file. -/
structure Disk where
  install : Option Tree
  staging : Option Tree
  backup : Option Tree
  state : Option Bytes
  part : Option Bytes
  deriving DecidableEq

namespace Disk

def get (s : Disk) : Place → Option Tree
  | .install => s.install
  | .staging => s.staging
  | .backup => s.backup

def set (s : Disk) (p : Place) (t : Option Tree) : Disk :=
  match p with
  | .install => { s with install := t }
  | .staging => { s with staging := t }
  | .backup => { s with backup := t }

end Disk

/-! ## Operations and their outcomes -/

inductive Op where
  | loadState
  | removeState
  | isDir (p : Place)
  | waitParent (pid : Int)
  | removeTree (p : Place)
  | extract (zip : Bytes)
  | saveState (phase : Phase) (zip : Bytes)
  | move (src dst : Place)
  | relaunch (app : Bytes)
  deriving DecidableEq, Repr

/-- What each operation answers. -/
abbrev Res : Op → Type
  | .loadState => StateLoad
  | .removeState => Unit
  | .isDir _ => Bool
  | .waitParent _ => UpdateStatus
  | .removeTree _ => UpdateStatus
  | .extract _ => UpdateStatus
  | .saveState _ _ => UpdateStatus
  | .move _ _ => UpdateStatus
  | .relaunch _ => UpdateStatus

/-- How the environment lets one operation turn out. What a step that stops half-way leaves depends on the
    operation. -/
inductive Outcome where
  /-- Nothing outside the program makes it fail. -/
  | ok
  /-- It fails and changes nothing. For the state file: it cannot be opened. -/
  | fail
  /-- It stops in the middle: a removal keeps what is also in `left`, an extraction leaves `left`,
      a save leaves its `.part` file, a load runs out of memory. -/
  | halfway (left : Tree)
  deriving DecidableEq

/-- The installation a run is about, what each package holds, and the temporary paths at which its files are
    written before they are moved into place. -/
structure World where
  installDir : Bytes
  package : Bytes → Tree
  temps : Bytes → List (List Bytes)

/-- With a trailing slash the names beside the install directory are names inside it: no rename
    between them and the directory can succeed. -/
def World.nested (w : World) : Bool := w.installDir.getLast? == some (ch '/')

/-- `updater_state_load`. -/
def stepLoadState (e : Outcome) (s : Disk) : StateLoad :=
  match s.state, e with
  | none, _ => .missing
  | some _, .fail => .missing
  | some _, .halfway _ => .error
  | some bytes, .ok => updaterStateLoad (some bytes)

/-- `updater_state_remove`. -/
def stepRemoveState (e : Outcome) (s : Disk) : Disk :=
  match e with
  | .ok => { s with state := none }
  | _ => s

/-- `path_is_dir`. -/
def stepIsDir (p : Place) (e : Outcome) (s : Disk) : Bool :=
  match e with
  | .ok => (s.get p).isSome
  | _ => false

/-- `update_remove_tree`: a path that is not there is an error. -/
def stepRemoveTree (p : Place) (e : Outcome) (s : Disk) : UpdateStatus × Disk :=
  match s.get p, e with
  | none, _ => (.error, s)
  | some _, .ok => (.ok, s.set p none)
  | some _, .fail => (.error, s)
  | some t, .halfway left => (.error, s.set p (some (t.filter (left.contains ·))))

/-- What the package is laid over: `update_extract` removes whatever it finds at a temporary path. -/
def World.cleared (w : World) (zip : Bytes) (t : Tree) : Tree :=
  t.prune fun q => (w.temps zip).any (·.isPrefixOf q)

/-- `update_extract` into the staging directory, over what is there. -/
def stepExtract (w : World) (zip : Bytes) (e : Outcome) (s : Disk) : UpdateStatus × Disk :=
  match e with
  | .ok => (.ok, { s with staging := some ((w.package zip).overlay (w.cleared zip (s.staging.getD []))) })
  | .fail => (.error, s)
  | .halfway left => (.error, { s with staging := some left })

/-- The outcome of a save as its calls see it. -/
def Outcome.save : Outcome → SaveEnv
  | .ok => ⟨true, true, true, true⟩
  | .fail => ⟨false, true, true, true⟩
  | .halfway _ => ⟨true, true, false, false⟩

/-- `updater_state_save_atomic`. -/
def stepSaveState (w : World) (phase : Phase) (zip : Bytes) (e : Outcome) (s : Disk) : UpdateStatus × Disk :=
  let r := updaterStateSaveAtomic e.save (w.installDir ++ stateSuffix) phase.text w.installDir
    (w.installDir ++ stagingSuffix) (w.installDir ++ backupSuffix) zip ⟨s.state, s.part⟩
  (if r.1 = 0 then .ok else .error, { s with state := r.2.state, part := r.2.part })

/-- `update_move_path`: `rename` replaces nothing but an empty directory. -/
def stepMove (w : World) (src dst : Place) (e : Outcome) (s : Disk) : UpdateStatus × Disk :=
  match e, s.get src with
  | .ok, some t =>
      if (s.get dst = none ∨ s.get dst = some []) ∧ w.nested = false then
        (.ok, (s.set src none).set dst (some t))
      else (.error, s)
  | _, _ => (.error, s)

/-- `update_wait_for_parent_exit`. -/
def stepWaitParent (pid : Int) (e : Outcome) : UpdateStatus :=
  if pid ≤ 0 ∨ e ≠ .ok then .error else .ok

/-- `update_relaunch_app`. -/
def stepRelaunch (app : Bytes) (e : Outcome) : UpdateStatus :=
  if updateValidatePath app true ≠ .ok ∨ e ≠ .ok then .error else .ok

def updaterDevice (w : World) : Device Op Res Outcome Disk where
  step
    | .loadState, e, s => (stepLoadState e s, s)
    | .removeState, e, s => ((), stepRemoveState e s)
    | .isDir p, e, s => (stepIsDir p e s, s)
    | .waitParent pid, e, s => (stepWaitParent pid e, s)
    | .removeTree p, e, s => stepRemoveTree p e s
    | .extract zip, e, s => stepExtract w zip e s
    | .saveState phase zip, e, s => stepSaveState w phase zip e s
    | .move src dst, e, s => stepMove w src dst e s
    | .relaunch app, e, s => (stepRelaunch app e, s)

@[simp] theorem World.cleared_nil (w : World) (zip : Bytes) : w.cleared zip [] = [] := rfl

/-- What an extraction leaves of what it finds was there. -/
theorem World.mem_of_mem_cleared {w : World} {zip : Bytes} {t : Tree} {n : List Bytes × Node Bytes}
    (h : n ∈ w.cleared zip t) : n ∈ t := (List.mem_filter.mp h).1

/-! ## What an operation does to the disk -/

namespace Disk

@[simp] theorem set_install (s : Disk) (t : Option Tree) : s.set .install t = { s with install := t } := rfl
@[simp] theorem set_staging (s : Disk) (t : Option Tree) : s.set .staging t = { s with staging := t } := rfl
@[simp] theorem set_backup (s : Disk) (t : Option Tree) : s.set .backup t = { s with backup := t } := rfl
@[simp] theorem get_install (s : Disk) : s.get .install = s.install := rfl
@[simp] theorem get_staging (s : Disk) : s.get .staging = s.staging := rfl
@[simp] theorem get_backup (s : Disk) : s.get .backup = s.backup := rfl

end Disk

/-- The branch that a program takes on a success. -/
@[simp] theorem ite_ok {α : Type} (a b : α) : (if UpdateStatus.ok ≠ .ok then a else b) = b :=
  if_neg (by decide)

/-- The branch that a program takes on a failure. -/
@[simp] theorem ite_error {α : Type} (a b : α) : (if UpdateStatus.error ≠ .ok then a else b) = a :=
  if_pos (by decide)

/-- The operations that only ask: they change nothing on the disk. -/
def Op.Asks : Op → Prop
  | .loadState | .isDir _ | .waitParent _ | .relaunch _ => True
  | _ => False

theorem step_asks {w : World} {o : Op} (h : o.Asks) (e : Outcome) (s : Disk) :
    ((updaterDevice w).step o e s).2 = s := by
  cases o with
  | loadState => rfl
  | isDir p => rfl
  | waitParent pid => rfl
  | relaunch app => rfl
  | removeState => exact h.elim
  | removeTree p => exact h.elim
  | extract zip => exact h.elim
  | saveState phase zip => exact h.elim
  | move src dst => exact h.elim

/-- A load that is not disturbed reads the file. -/
theorem stepLoadState_ok (s : Disk) : stepLoadState .ok s = updaterStateLoad s.state := by
  unfold stepLoadState
  cases s.state with
  | none => rfl
  | some bytes => rfl

/-- Any other load finds no file or gives up. -/
theorem stepLoadState_cases {e : Outcome} {s : Disk} {r : StateLoad} (h : stepLoadState e s = r) :
    r = .missing ∨ r = .error ∨ updaterStateLoad s.state = r := by
  subst h
  cases e with
  | ok => exact Or.inr (Or.inr (stepLoadState_ok s).symm)
  | fail =>
      left
      unfold stepLoadState
      cases s.state <;> rfl
  | halfway left =>
      unfold stepLoadState
      cases s.state with
      | none => exact Or.inl rfl
      | some bytes => exact Or.inr (Or.inl rfl)

/-- Removing the state file leaves the directories. -/
theorem stepRemoveState_frame {w : World} {e : Outcome} {s s' : Disk} {r : Unit}
    (h : (updaterDevice w).step .removeState e s = (r, s')) :
    s'.install = s.install ∧ s'.staging = s.staging ∧ s'.backup = s.backup := by
  rw [← (Prod.mk.inj h).2]
  cases e <;> exact ⟨rfl, rfl, rfl⟩

/-- A removal leaves the disk as it is, removes the directory, or stops half-way. -/
theorem stepRemoveTree_cases {p : Place} {e : Outcome} {s s' : Disk} {r : UpdateStatus}
    (h : stepRemoveTree p e s = (r, s')) :
    s' = s ∨ s' = s.set p none
      ∨ ∃ t left, e = .halfway left ∧ s.get p = some t ∧ s' = s.set p (some (t.filter (left.contains ·))) := by
  unfold stepRemoveTree at h
  cases hp : s.get p with
  | none =>
      rw [hp] at h
      exact Or.inl (Prod.mk.inj h).2.symm
  | some t =>
      rw [hp] at h
      cases e with
      | ok => exact Or.inr (Or.inl (Prod.mk.inj h).2.symm)
      | fail => exact Or.inl (Prod.mk.inj h).2.symm
      | halfway left => exact Or.inr (Or.inr ⟨t, left, rfl, rfl, (Prod.mk.inj h).2.symm⟩)

/-- A removal leaves every other directory and the state file. -/
theorem stepRemoveTree_frame {p : Place} {e : Outcome} {s s' : Disk} {r : UpdateStatus}
    (h : stepRemoveTree p e s = (r, s')) :
    (∀ q, q ≠ p → s'.get q = s.get q) ∧ s'.state = s.state := by
  rcases stepRemoveTree_cases h with rfl | rfl | ⟨t, left, _, _, rfl⟩
  · exact ⟨fun _ _ => rfl, rfl⟩
  · refine ⟨fun q hq => ?_, by cases p <;> rfl⟩
    cases p <;> cases q <;> first | rfl | exact absurd rfl hq
  · refine ⟨fun q hq => ?_, by cases p <;> rfl⟩
    cases p <;> cases q <;> first | rfl | exact absurd rfl hq

/-- A removal that is not disturbed leaves nothing. -/
theorem stepRemoveTree_ok {p : Place} {s s' : Disk} {r : UpdateStatus}
    (h : stepRemoveTree p .ok s = (r, s')) : s' = s.set p none := by
  unfold stepRemoveTree at h
  cases hp : s.get p with
  | none =>
      rw [hp] at h
      rw [← (Prod.mk.inj h).2]
      cases p <;> cases s <;> cases hp <;> rfl
  | some t =>
      rw [hp] at h
      exact (Prod.mk.inj h).2.symm

/-- A move fails without effect, or takes the whole directory to a place that was free. -/
theorem stepMove_cases {w : World} {src dst : Place} {e : Outcome} {s s' : Disk} {r : UpdateStatus}
    (h : stepMove w src dst e s = (r, s')) :
    r = .error ∧ s' = s
      ∨ r = .ok ∧ ∃ t, s.get src = some t ∧ (s.get dst = none ∨ s.get dst = some [])
          ∧ s' = (s.set src none).set dst (some t) := by
  unfold stepMove at h
  cases e with
  | ok =>
      cases hsrc : s.get src with
      | none =>
          rw [hsrc] at h
          exact Or.inl ⟨(Prod.mk.inj h).1.symm, (Prod.mk.inj h).2.symm⟩
      | some t =>
          simp only [hsrc] at h
          split at h
          · next hdst => exact Or.inr ⟨(Prod.mk.inj h).1.symm, t, rfl, hdst.1, (Prod.mk.inj h).2.symm⟩
          · exact Or.inl ⟨(Prod.mk.inj h).1.symm, (Prod.mk.inj h).2.symm⟩
  | fail => exact Or.inl ⟨(Prod.mk.inj h).1.symm, (Prod.mk.inj h).2.symm⟩
  | halfway left => exact Or.inl ⟨(Prod.mk.inj h).1.symm, (Prod.mk.inj h).2.symm⟩

/-- Between nested directories nothing moves. -/
theorem stepMove_nested {w : World} (h : w.nested = true) (src dst : Place) (e : Outcome) (s : Disk) :
    stepMove w src dst e s = (.error, s) := by
  unfold stepMove
  cases e with
  | ok => cases s.get src <;> simp [h]
  | fail => rfl
  | halfway left => rfl

/-- A save touches the state file and its `.part` file only. -/
theorem stepSaveState_frame {w : World} {phase : Phase} {zip : Bytes} {e : Outcome} {s s' : Disk}
    {r : UpdateStatus} (h : stepSaveState w phase zip e s = (r, s')) :
    s'.install = s.install ∧ s'.staging = s.staging ∧ s'.backup = s.backup := by
  rw [← (Prod.mk.inj h).2]
  exact ⟨rfl, rfl, rfl⟩

/-! ## The program -/

/-- How a run ends. `error` and `relaunchFailed` both return `UPDATE_ERROR`; after `undefined` nothing
    is known. -/
inductive Exit where
  | ok
  | error
  | relaunchFailed
  | undefined
  deriving DecidableEq, Repr

abbrev UpdaterProg := Prog Op Res

abbrev updaterLoadState : UpdaterProg StateLoad := .perform Op.loadState
abbrev updaterStateRemove : UpdaterProg Unit := .perform Op.removeState
abbrev pathIsDir (p : Place) : UpdaterProg Bool := .perform (Op.isDir p)
abbrev updateWaitForParentExit (pid : Int) : UpdaterProg UpdateStatus := .perform (Op.waitParent pid)
abbrev updateRemoveTree (p : Place) : UpdaterProg UpdateStatus := .perform (Op.removeTree p)
abbrev updateExtractStaging (zip : Bytes) : UpdaterProg UpdateStatus := .perform (Op.extract zip)
abbrev updaterStateSave (phase : Phase) (zip : Bytes) : UpdaterProg UpdateStatus :=
  .perform (Op.saveState phase zip)
abbrev updateMovePath (src dst : Place) : UpdaterProg UpdateStatus := .perform (Op.move src dst)
abbrev updateRelaunchApp (app : Bytes) : UpdaterProg UpdateStatus := .perform (Op.relaunch app)

/-- What `parse_args` hands to the rest of `main`. -/
structure Args where
  zip : Bytes
  target : Bytes
  pid : Int
  app : Bytes
  deriving DecidableEq, Repr

/-- `join_install_app`. -/
def joinInstallApp (installDir app : Bytes) : Option Bytes :=
  if app.head? = some (ch '/') then snprintf pathMax app
  else snprintf pathMax (installDir ++ ascii "/" ++ app)

/-- The end of every successful path. -/
def relaunch (app : Bytes) : UpdaterProg Exit := do
  if (← updateRelaunchApp app) ≠ .ok then return .relaunchFailed
  return .ok

/-- The end of an update that installed: the backup and the state file go. -/
def finishUpdate (app : Bytes) : UpdaterProg Exit := do
  let _ ← updateRemoveTree .backup
  updaterStateRemove
  relaunch app

/-- The end of an update that failed with the old tree in place. -/
def abandonUpdate : UpdaterProg Exit := do
  let _ ← updateRemoveTree .staging
  updaterStateRemove
  return .error

/-- The end of an update that failed with the old tree in the backup. -/
def restoreBackup : UpdaterProg Exit := do
  -- where this move fails the state file stays, for the next run to roll back
  if (← updateMovePath .backup .install) ≠ .ok then return .error
  abandonUpdate

/-- `UPDATER_RESUME_ROLLBACK`. -/
def resumeRollback (app : Bytes) : UpdaterProg Exit := do
  if (← updateMovePath .backup .install) ≠ .ok then return .error
  let _ ← updateRemoveTree .staging
  updaterStateRemove
  relaunch app

/-- `UPDATER_RESUME_POST_BACKUP`, which is also the end of a full update. -/
def resumePostBackup (zip app : Bytes) : UpdaterProg Exit := do
  -- from here on the old tree is in the backup only
  if (← updateMovePath .staging .install) ≠ .ok then restoreBackup
  else do
    -- the answer of this save is not looked at: the new tree is in place
    let _ ← updaterStateSave .installed zip
    finishUpdate app

/-- `UPDATER_RESUME_POST_EXTRACT`: from the `"extracted"` save on. -/
def resumePostExtract (zip app : Bytes) : UpdaterProg Exit := do
  if (← updaterStateSave .extracted zip) ≠ .ok then abandonUpdate
  else do
    -- a backup of an earlier update would stand in the way of the move
    let _ ← updateRemoveTree .backup
    if (← updateMovePath .install .backup) ≠ .ok then abandonUpdate
    else do
      if (← updaterStateSave .installBackedUp zip) ≠ .ok then restoreBackup
      else resumePostBackup zip app

/-- `UPDATER_RESUME_FULL`. -/
def resumeFull (zip app : Bytes) : UpdaterProg Exit := do
  let _ ← updateRemoveTree .staging
  if (← updateExtractStaging zip) ≠ .ok then abandonUpdate
  else resumePostExtract zip app

/-- `main` at its resume point. -/
def resumeAt (zip app : Bytes) : Resume → UpdaterProg Exit
  | .rollback => resumeRollback app
  | .postInstall => finishUpdate app
  | .postBackup => resumePostBackup zip app
  | .postExtract => resumePostExtract zip app
  | .full => resumeFull zip app

/-- `main` once the state file has been looked at. -/
def waitAndResume (a : Args) (resume : Resume) : UpdaterProg Exit := do
  if (← updateWaitForParentExit a.pid) ≠ .ok then return .error
  match joinInstallApp a.target a.app with
  | none => return .error
  | some app => resumeAt a.zip app resume

/-- `main` from `updater_state_load` on. -/
def loadAndResume (a : Args) : UpdaterProg Exit := do
  match ← updaterLoadState with
  | .overrun => return .undefined
  | .missing => waitAndResume a .full
  -- a state file that cannot be read is removed, and the update starts over
  | .error => do
      updaterStateRemove
      waitAndResume a .full
  | .found st =>
      if updaterStateValidate st a.target (a.target ++ stagingSuffix) (a.target ++ backupSuffix) a.zip ≠ 0 then do
        updaterStateRemove
        waitAndResume a .full
      else do
        let inst ← pathIsDir .install
        let stg ← pathIsDir .staging
        let bak ← pathIsDir .backup
        waitAndResume a (updaterDetermineResume inst stg bak st)

/-- `main` after `parse_args`. -/
def updaterMain (a : Args) : UpdaterProg Exit :=
  match snprintf pathMax (a.target ++ stagingSuffix), snprintf pathMax (a.target ++ backupSuffix),
      snprintf pathMax (a.target ++ stateSuffix) with
  | some staging, some backup, some statePath =>
      if updateValidateInstallPaths a.zip a.target staging backup statePath ≠ .ok then return .error
      else loadAndResume a
  | _, _, _ => return .error

/-! ## The command line -/

/-- The options read so far; `pid` starts at -1. -/
structure Options where
  zip : Option Bytes
  target : Option Bytes
  app : Option Bytes
  pid : Int

/-- The loop of `parse_args` over `argv[1..]`. -/
def parseOptions (o : Options) : List Bytes → Option Options
  | [] => some o
  -- an option without its value
  | [_] => none
  | arg :: value :: rest =>
      if arg = ascii "--install" then parseOptions { o with zip := some value } rest
      else if arg = ascii "--target" then parseOptions { o with target := some value } rest
      else if arg = ascii "--pid" then parseOptions { o with pid := atoi value } rest
      else if arg = ascii "--app" then parseOptions { o with app := some value } rest
      else none

/-- `parse_args`. -/
def parseArgs (argv : List Bytes) : Option Args :=
  match parseOptions ⟨none, none, none, -1⟩ argv.tail with
  | some ⟨some zip, some target, some app, pid⟩ =>
      if zip = [] ∨ target = [] ∨ app = [] ∨ pid ≤ 0 then none else some ⟨zip, target, pid, app⟩
  | _ => none

/-- Paths that are accepted get the updater to the state file. -/
theorem updaterMain_eq {w : World} {a : Args} (htarget : a.target = w.installDir)
    (h : updateValidateInstallPaths a.zip w.installDir (w.installDir ++ stagingSuffix)
      (w.installDir ++ backupSuffix) (w.installDir ++ stateSuffix) = .ok) : updaterMain a = loadAndResume a := by
  have hpaths := updateValidateInstallPaths_ok h
  have hsome : ∀ suffix, updateValidatePath (w.installDir ++ suffix) true = .ok →
      snprintf pathMax (w.installDir ++ suffix) = some (w.installDir ++ suffix) := fun suffix hok =>
    snprintf_eq_some.mpr ⟨(updateValidatePath_eq_ok.mp hok).1.short, rfl⟩
  unfold updaterMain
  rw [htarget, hsome _ hpaths.staging, hsome _ hpaths.backup, hsome _ hpaths.state]
  dsimp only
  rw [if_neg (Decidable.not_not.mpr h)]

/-- A command line that is taken has a process id. -/
theorem parseArgs_pid {argv : List Bytes} {a : Args} (h : parseArgs argv = some a) : 0 < a.pid := by
  unfold parseArgs at h
  split at h
  · split at h
    · cases h
    · next hbad =>
      obtain rfl := Option.some.inj h
      simp only [not_or, Int.not_le] at hbad
      exact hbad.2.2.2
  · cases h

/-- `main`. -/
def main (argv : List Bytes) : UpdaterProg Exit :=
  match parseArgs argv with
  | none => return .error
  | some a => updaterMain a

end LibUpdate
