import LibUpdate.Foundation.Blocks
import LibUpdate.Foundation.Trace
import LibUpdate.Platform.Volume

/-!
# `Copy.Model` — copying trees (`update_ops.c`, POSIX build)

`copy_tree_posix` walks the source directory by directory and copies each file through two streams. Its
operations are those of the C library and, for the directories that it makes, those under `platform_fs.c`; each
may fail. What is written goes through the buffer of the stream: what of it has come to the file before `fclose`
is up to the environment, and so is what is left where the flush fails. The answer of `fclose` is not looked at.

A path is a C string, and `NULL` is taken for the empty one; both are turned away in the same test.
-/

namespace LibUpdate

namespace Copy

inductive Op where
  /-- An operation under `platform_fs.c`. -/
  | fs (o : FsOp)
  /-- `opendir`, and the calls of `readdir` on the directory. -/
  | opendir (path : Bytes)
  /-- `stat`, asked whether a directory is there. -/
  | stat (path : Bytes)
  /-- `fopen` with `"rb"`. -/
  | fopenRead (path : Bytes)
  /-- `fopen` with `"wb"`. -/
  | fopenWrite (path : Bytes)
  /-- `fread` on the stream of this file, where this block is next. -/
  | fread (path block : Bytes)
  /-- `fwrite` on the stream of this file. -/
  | fwrite (path block : Bytes)
  /-- `fclose` on the stream of this file, with what was written where all of it was. -/
  | fclose (path : Bytes) (written : Option Bytes)
  /-- `remove`. -/
  | remove (path : Bytes)

/-- What each operation answers. -/
abbrev Res : Op → Type
  | .fs _ => Bool
  -- the names in the order of `readdir`, and whether it fails in the end
  | .opendir _ => Option (List Bytes × Bool)
  | .stat _ => Bool
  -- what there is to read
  | .fopenRead _ => Option Bytes
  | .fopenWrite _ => Bool
  -- where the read fails, how much of the block it has got
  | .fread _ _ => Option Nat
  | .fwrite _ _ => Bool
  | .fclose _ _ => Bool
  | .remove _ => Bool

/-- How the environment lets an operation turn out. -/
abbrev Turn : Op → Type
  | .fs _ => FsOutcome
  -- the order of the names, and where `readdir` fails, after how many
  | .opendir _ => Option (List Bytes × Option Nat)
  | .stat _ => Bool
  | .fopenRead _ => Bool
  | .fopenWrite _ => Bool
  | .fread _ _ => Option Nat
  -- whether the write succeeds, and what is in the file then
  | .fwrite _ _ => Bool × Bytes
  -- where the flush fails, what is in the file then
  | .fclose _ _ => Option Bytes
  | .remove _ => Bool

abbrev Outcome := (o : Op) → Turn o

/-! ## The operations -/

/-- An entry that is not the directory itself or the one above it. -/
def isEntry (x : Bytes) : Bool := x != dot && x != dotdot

/-- The names in a directory in the order that is asked for, if it is one of them, with `.` and `..` anywhere. -/
def enumerate (order names : List Bytes) : List Bytes :=
  if (order.filter isEntry).isPerm names then order else names

def stepOpendir (path : Bytes) (e : Option (List Bytes × Option Nat)) (t : Fs) : Option (List Bytes × Bool) :=
  match e with
  | none => none
  | some (order, failsAfter) =>
      if t.isDir (fsPath path) then
        let names := enumerate order (t.children (fsPath path))
        match failsAfter with
        | none => some (names, false)
        | some n => some (names.take n, true)
      else none

/-- A directory can be opened, too; there is nothing to read from it. -/
def stepFopenRead (path : Bytes) (ok : Bool) (t : Fs) : Option Bytes :=
  if ok then
    match t.fileAt (fsPath path) with
    | some f => some f.data
    | none => if t.isDir (fsPath path) then some [] else none
  else none

def stepFopenWrite (newMode : Nat) (path : Bytes) (ok : Bool) (t : Fs) : Bool × Fs :=
  if ok && canOpen t (fsPath path) then (true, writeFile newMode t (fsPath path) []) else (false, t)

/-- What is not a file cannot be read. -/
def stepFread (path : Bytes) (failed : Option Nat) (t : Fs) : Option Nat :=
  if (t.fileAt (fsPath path)).isSome then failed else some (failed.getD 0)

/-- Removes a file, or a directory with nothing in it. -/
def stepRemoveOne (path : Bytes) (ok : Bool) (t : Fs) : Bool × Fs :=
  if ok && (t.get (fsPath path)).isSome && (t.children (fsPath path)).isEmpty then
    (true, t.prune fun q => q == fsPath path)
  else (false, t)

/-- The operations on a tree; `newMode` are the permission bits of a new file. -/
def stepTree (newMode : Nat) : (o : Op) → Turn o → Fs → Res o × Fs
  | .fs o, e, t => (fsDevice newMode).step o e t
  | .opendir path, e, t => (stepOpendir path e t, t)
  | .stat path, ok, t => (ok && t.isDir (fsPath path), t)
  | .fopenRead path, ok, t => (stepFopenRead path ok t, t)
  | .fopenWrite path, ok, t => stepFopenWrite newMode path ok t
  | .fread path _, failed, t => (stepFread path failed t, t)
  | .fwrite path _, e, t => (e.1, storeFile t (fsPath path) e.2)
  | .fclose path written, failed, t => stepFclose path written failed t
  | .remove path, ok, t => stepRemoveOne path ok t

theorem storeFile_posix {t : Fs} (h : Posix t) (path data : Bytes) : Posix (storeFile t (fsPath path) data) := by
  unfold storeFile
  split
  · next f hf =>
    have hget := FileTree.get_of_fileAt hf
    have hne : fsPath path ≠ [] := by
      intro hroot
      rw [hroot, h.tree.root] at hget
      cases hget
    exact h.set (h.tree.isDir_dropLast hget) (FileTree.isDir_eq_false_of_fileAt hne hf)
  · exact h

/-- Nothing lies in what has no names in it. -/
theorem get_eq_none_of_children {t : Fs} {p : List Bytes} (h : (t.children p).isEmpty = true) (x : Bytes) :
    t.get (p ++ [x]) = none := by
  rw [← Option.isNone_iff_eq_none, ← Option.not_isSome, Bool.not_eq_true', Bool.eq_false_iff, ne_eq,
    ← FileTree.mem_children, List.isEmpty_iff.mp h]
  exact List.not_mem_nil

theorem stepRemoveOne_posix {t : Fs} (h : Posix t) (path : Bytes) (ok : Bool) :
    Posix (stepRemoveOne path ok t).2 := by
  unfold stepRemoveOne
  split
  · next hremove =>
    have hempty := (Bool.and_eq_true_iff.mp hremove).2
    have hwell : (t.prune fun q => q == fsPath path).WellFormed := by
      constructor
      · rw [FileTree.get_prune, h.tree.root]
        exact ite_self _
      · intro p x n hn
        rw [FileTree.get_prune] at hn
        split at hn
        · cases hn
        rcases FileTree.isDir_iff.mp (h.tree.parent p x n hn) with hroot | hdir
        · exact FileTree.isDir_iff.mpr (Or.inl hroot)
        · refine FileTree.isDir_iff.mpr (Or.inr ?_)
          rw [FileTree.get_prune, if_neg]
          · exact hdir
          · intro hp
            -- the directory that is removed had nothing in it
            rw [eq_of_beq hp, get_eq_none_of_children hempty] at hn
            cases hn
    apply h.of_get (p := path) hwell
    intro q n hn
    exact Or.inl (get_prune_isSome hn)
  · exact h

/-- **Every operation keeps a file system one that can be.** -/
theorem stepTree_posix (newMode : Nat) (o : Op) (e : Turn o) {t : Fs} (h : Posix t) :
    Posix (stepTree newMode o e t).2 := by
  cases o with
  | fs o => exact step_posix h
  | opendir path => exact h
  | stat path => exact h
  | fopenRead path => exact h
  | fopenWrite path =>
      show Posix (stepFopenWrite newMode path e t).2
      unfold stepFopenWrite
      split
      · next hopen =>
        obtain ⟨hfile, hparent⟩ := canOpen_iff.mp (Bool.and_eq_true_iff.mp hopen).2
        exact h.set hparent hfile
      · exact h
  | fread path block => exact h
  | fwrite path block => exact storeFile_posix h path e.2
  | fclose path written =>
      show Posix (stepFclose path written e t).2
      unfold stepFclose
      split
      · exact storeFile_posix h path _
      · exact storeFile_posix h path _
      · exact h
  | remove path => exact stepRemoveOne_posix h path e

def device (newMode : Nat) : Device Op Res Outcome Volume where
  step o e s :=
    ((stepTree newMode o (e o) s.1).1, ⟨(stepTree newMode o (e o) s.1).2, stepTree_posix newMode o (e o) s.2⟩)

end Copy

abbrev CopyProg := Prog Copy.Op Copy.Res

namespace Copy

/-- Performs one operation. -/
abbrev ask (o : Op) : CopyProg (Res o) := Prog.perform o

/-- A program under `platform_fs.c`. -/
def fs {α : Type} (p : FsProg α) : CopyProg α := p.embed Op.fs fun _ r => r

end Copy

open Copy (ask)

/-! ## Files -/

/-- The blocks that `fread` reads into `buf`. -/
def fileBlocks (data : Bytes) : List Bytes := cutBlocks 65536 (data.length / 65536) data

/-- The loop of `copy_file_once` over the blocks that are left: whether it comes to the end of the file. A read
    that fails may have got a part of its block, which is written; the error stays with the stream, and the read
    that follows it is taken to give nothing. -/
def copyBlocks (src dst : Bytes) : List Bytes → CopyProg Bool
  | [] => do
      let failed ← ask (.fread src [])
      pure failed.isNone
  | block :: blocks => do
      let failed ← ask (.fread src block)
      match failed with
      | none =>
          let written ← ask (.fwrite dst block)
          if written then copyBlocks src dst blocks else pure false
      | some 0 => pure false
      | some n =>
          let _ ← ask (.fwrite dst (block.take n))
          pure false

/-- `copy_file_once`: whether it returns 0. -/
def copyFileOnce (src dst : Bytes) : CopyProg Bool := do
  let opened ← ask (.fopenRead src)
  match opened with
  | none => pure false
  | some content =>
      let created ← ask (.fopenWrite dst)
      if created then
        let copied ← copyBlocks src dst (fileBlocks content)
        if copied then
          let _ ← ask (.fclose dst (some (fileBlocks content).flatten))
          pure true
        else
          let _ ← ask (.fclose dst none)
          let _ ← ask (.remove dst)
          pure false
      else pure false

/-- The attempts of `copy_file_retries`. -/
def copyFileAttempts (src dst : Bytes) : Nat → CopyProg Bool
  | 0 => pure false
  | n + 1 => do
      let copied ← copyFileOnce src dst
      if copied then pure true
      else
        let _ ← ask (.remove dst)
        copyFileAttempts src dst n

def copyFileRetries (src dst : Bytes) : CopyProg Bool := copyFileAttempts src dst 8

/-! ## Paths -/

/-- `join_path2`, with the buffers of `UPDATE_OPS_PATH_MAX` bytes that it is given. -/
def joinPath2 (a b : Bytes) : Option Bytes := snprintf pathMax (a ++ ascii "/" ++ b)

/-- `str_ieq_ascii`. -/
def strIeqAscii (a b : Bytes) : Bool := a.map tolower == b.map tolower

/-- The name that a staged file gets: an updater does not replace the one that is running. -/
def stagedName (srcLeaf : Bytes) : Bytes :=
  if strIeqAscii srcLeaf (ascii "updater.exe") then ascii "updater_new.exe"
  else if strIeqAscii srcLeaf (ascii "updater") then ascii "updater_new"
  else srcLeaf

/-- `stage_overlay_dst_leaf`. -/
def stageOverlayDstLeaf (srcLeaf : Bytes) (overlay : Bool) : Option Bytes :=
  snprintf pathMax (if overlay then stagedName srcLeaf else srcLeaf)

/-! ## Trees -/

/-- What the loop of `copy_tree_posix` does for an entry: whether it goes on. `copyDir` copies a directory. -/
def copyEntry (copyDir : Bytes → Bytes → CopyProg Bool) (overlay soft : Bool) (srcDir dstDir name : Bytes) :
    CopyProg Bool :=
  match joinPath2 srcDir name with
  | none => pure false
  | some srcPath => do
      let isDir ← ask (.stat srcPath)
      if isDir then
        match joinPath2 dstDir name with
        | none => pure false
        | some dstPath => copyDir srcPath dstPath
      else
        match (stageOverlayDstLeaf name overlay).bind (joinPath2 dstDir) with
        | none => pure false
        | some dstPath => do
            let copied ← copyFileRetries srcPath dstPath
            pure (copied || soft)

/-- The loop of `copy_tree_posix` over the names that `readdir` gives: whether it comes to the end of them. -/
def copyEntries (copyDir : Bytes → Bytes → CopyProg Bool) (overlay soft : Bool) (srcDir dstDir : Bytes) :
    List Bytes → CopyProg Bool
  | [] => pure true
  | name :: names =>
      if Copy.isEntry name then do
        let done ← copyEntry copyDir overlay soft srcDir dstDir name
        if done then copyEntries copyDir overlay soft srcDir dstDir names else pure false
      else copyEntries copyDir overlay soft srcDir dstDir names

/-- `copy_tree_posix` down to `depth` directories. -/
def copyTreeAt (overlay soft : Bool) : Nat → Bytes → Bytes → CopyProg Bool
  | 0, _, _ => pure false
  | depth + 1, srcDir, dstDir => do
      let made ← Copy.fs (createDirectoryRecursive dstDir)
      if made then
        let listing ← ask (.opendir srcDir)
        match listing with
        | none => pure false
        | some (names, failed) =>
            let done ← copyEntries (copyTreeAt overlay soft depth) overlay soft srcDir dstDir names
            pure (done && !failed)
      else pure false

/-- `copy_tree_posix`: whether it returns 0. A directory that is entered has a longer path, and `join_path2` makes
    none of `pathMax` bytes, so that it does not get so deep. -/
def copyTreePosix (overlay soft : Bool) (srcDir dstDir : Bytes) : CopyProg Bool :=
  copyTreeAt overlay soft pathMax srcDir dstDir

/-- The passes of the functions below. -/
def copyPasses (overlay soft : Bool) (srcDir dstDir : Bytes) : Nat → CopyProg UpdateStatus
  | 0 => pure .error
  | n + 1 => do
      let copied ← copyTreePosix overlay soft srcDir dstDir
      if copied then pure .ok else copyPasses overlay soft srcDir dstDir n

/-- The one body of the functions below. -/
def copyTreeWith (overlay soft : Bool) (srcDir dstDir : Bytes) : CopyProg UpdateStatus :=
  if srcDir = [] || dstDir = [] then pure .error else copyPasses overlay soft srcDir dstDir 8

def updateCopyTree (srcDir dstDir : Bytes) : CopyProg UpdateStatus := copyTreeWith false false srcDir dstDir

def updateCopyTreeBestEffort (srcDir dstDir : Bytes) : CopyProg UpdateStatus := copyTreeWith false true srcDir dstDir

def updateCopyTreeStageOverlay (srcDir dstDir : Bytes) : CopyProg UpdateStatus :=
  copyTreeWith true false srcDir dstDir

/-! ## The install tree -/

def updateRecreateInstallFromBackup (installDir backupDir : Bytes) : CopyProg UpdateStatus :=
  if installDir = [] || backupDir = [] then pure .error
  else do
    let made ← Copy.fs (createDirectoryRecursive installDir)
    if made then
      let copied ← updateCopyTree backupDir installDir
      if copied = .ok then pure .ok else pure .error
    else pure .error

def updateMergeOverlayInstall (installDir backupDir stagingDir : Bytes) : CopyProg UpdateStatus :=
  if installDir = [] || backupDir = [] || stagingDir = [] then pure .error
  else do
    let recreated ← updateRecreateInstallFromBackup installDir backupDir
    if recreated = .ok then
      let copied ← updateCopyTreeStageOverlay stagingDir installDir
      if copied = .ok then pure .ok else pure .error
    else pure .error

end LibUpdate
