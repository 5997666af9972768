import LibUpdate.Copy.Complete
import LibUpdate.Foundation.Graft

/-!
# `System.Model` — the system calls under the updater (POSIX build)

The updater's own steps (a removal, a move, a saved state) are programs. Their operations are the calls that the
system answers one by one: each either happens or does not, apart from the writes, of which a part may come to the
file. A run may stop between any two of them.

The calls that copying uses too are those of `Copy.Op`; what is new is `lstat`, `unlink`, `rmdir`, `rename` of
directories, the reading of the state file, and the calls that change no file.
-/

namespace LibUpdate

namespace Sys

inductive Op where
  /-- A call that copying uses too. -/
  | io (o : Copy.Op)
  /-- `lstat`, asked whether a directory is there or something else. -/
  | lstat (path : Bytes)
  | unlink (path : Bytes)
  | rmdir (path : Bytes)
  | rename (src dst : Bytes)
  /-- `fopen` with `"rb"`, `malloc` and the calls of `fread` up to the end of the file. -/
  | readFile (path : Bytes)
  /-- `kill` with no signal, over and over, until it fails for good. -/
  | awaitExit (pid : Int)
  /-- `platform_process_spawn`. -/
  | spawn (path : Bytes)

/-- What each call answers. -/
abbrev Res : Op → Type
  | .io o => Copy.Res o
  -- whether it is a directory, if it is there
  | .lstat _ => Option Bool
  | .unlink _ => Bool
  | .rmdir _ => Bool
  | .rename _ _ => Bool
  -- nothing where the file cannot be opened; then the bytes, if there was memory
  | .readFile _ => Option (Option Bytes)
  -- whether the process is gone
  | .awaitExit _ => Bool
  | .spawn _ => Bool

/-- How the reading of a file turns out. A read that is begun comes to the end of the file. -/
inductive ReadTurn where
  | unopened
  | noMemory
  | whole
  deriving DecidableEq, Repr

/-- How the environment lets a call turn out. -/
abbrev Turn : Op → Type
  | .io o => Copy.Turn o
  | .lstat _ => Bool
  | .unlink _ => Bool
  | .rmdir _ => Bool
  | .rename _ _ => Bool
  | .readFile _ => ReadTurn
  | .awaitExit _ => Bool
  | .spawn _ => Bool

abbrev Outcome := (o : Op) → Turn o

/-! ## The calls -/

/-- What `lstat` finds: whether there is a directory at the path or a file, or nothing. There are no symbolic links. -/
def stepLstat (path : Bytes) (ok : Bool) (t : Fs) : Option Bool :=
  if ok then
    if t.isDir (fsPath path) then some true
    else if (t.get (fsPath path)).isSome then some false
    else none
  else none

def stepUnlink (path : Bytes) (ok : Bool) (t : Fs) : Bool × Fs :=
  if (t.fileAt (fsPath path)).isSome then Copy.stepRemoveOne path ok t else (false, t)

def stepRmdir (path : Bytes) (ok : Bool) (t : Fs) : Bool × Fs :=
  if t.get (fsPath path) = some .dir then Copy.stepRemoveOne path ok t else (false, t)

/-- A directory can take a place that is free, or where there is a directory with nothing in it, unless it lies
    in the directory itself. -/
def canMoveDir (t : Fs) (src dst : List Bytes) : Bool :=
  !src.isPrefixOf dst && !dst.isEmpty && t.isDir dst.dropLast
    && ((t.get dst).isNone || (t.get dst == some .dir && (t.children dst).isEmpty))

/-- `rename`: of a directory with all that is in it, or of a file over what is no directory. -/
def stepRenamePath (src dst : Bytes) (ok : Bool) (t : Fs) : Bool × Fs :=
  if t.get (fsPath src) = some .dir then
    if ok && canMoveDir t (fsPath src) (fsPath dst) then (true, t.moveUnder (fsPath src) (fsPath dst))
    else (false, t)
  else stepRename src dst ⟨ok, fun _ => false, none⟩ t

/-- A directory can be opened; there is nothing to read from it. -/
def stepReadFile (path : Bytes) (e : ReadTurn) (t : Fs) : Option (Option Bytes) :=
  match t.fileAt (fsPath path), e with
  | _, .unopened => none
  | some _, .noMemory => some none
  | some f, .whole => some (some f.data)
  | none, e =>
      if t.isDir (fsPath path) then
        if e = .noMemory then some none else some (some [])
      else none

/-- The calls on a tree; `newMode` are the permission bits of a new file. -/
def stepTree (newMode : Nat) : (o : Op) → Turn o → Fs → Res o × Fs
  | .io o, e, t => Copy.stepTree newMode o e t
  | .lstat path, ok, t => (stepLstat path ok t, t)
  | .unlink path, ok, t => stepUnlink path ok t
  | .rmdir path, ok, t => stepRmdir path ok t
  | .rename src dst, ok, t => stepRenamePath src dst ok t
  | .readFile path, e, t => (stepReadFile path e t, t)
  | .awaitExit _, gone, t => (gone, t)
  | .spawn _, ok, t => (ok, t)

/-! ## File systems stay what they are -/

theorem stepUnlink_posix {t : Fs} (h : Posix t) (path : Bytes) (ok : Bool) : Posix (stepUnlink path ok t).2 := by
  unfold stepUnlink
  split
  · exact Copy.stepRemoveOne_posix h path ok
  · exact h

theorem stepRmdir_posix {t : Fs} (h : Posix t) (path : Bytes) (ok : Bool) : Posix (stepRmdir path ok t).2 := by
  unfold stepRmdir
  split
  · exact Copy.stepRemoveOne_posix h path ok
  · exact h

theorem canMoveDir_iff {t : Fs} {src dst : List Bytes} :
    canMoveDir t src dst = true ↔ ¬ src <+: dst ∧ dst ≠ [] ∧ t.isDir dst.dropLast = true
      ∧ (t.get dst = none ∨ t.get dst = some .dir ∧ t.children dst = []) := by
  unfold canMoveDir
  simp only [Bool.and_eq_true, Bool.or_eq_true, Bool.not_eq_true', Option.isNone_iff_eq_none, beq_iff_eq,
    List.isEmpty_iff, List.isEmpty_eq_false_iff, ← List.isPrefixOf_iff_prefix, Bool.not_eq_true, and_assoc]

/-- The nodes that are moved have names that files can have. -/
theorem moveUnder_posix {t : Fs} (h : Posix t) {src : List Bytes} {dst : Bytes}
    (hmove : canMoveDir t src (fsPath dst) = true) : Posix (t.moveUnder src (fsPath dst)) := by
  obtain ⟨hout, hne, hparent, _⟩ := canMoveDir_iff.mp hmove
  refine ⟨h.tree.moveUnder hne hparent hout, ?_⟩
  intro q n hn x hx
  rw [FileTree.get_moveUnder] at hn
  split at hn
  · next hbelow =>
    obtain ⟨r, rfl⟩ := hbelow
    rw [List.drop_left] at hn
    rcases List.mem_append.mp hx with hx | hx
    · exact fsPath_names dst x hx
    · exact h.names _ n hn x (List.mem_append_right _ hx)
  · split at hn
    · cases hn
    · exact h.names q n hn x hx

theorem stepRenamePath_posix {t : Fs} (h : Posix t) (src dst : Bytes) (ok : Bool) :
    Posix (stepRenamePath src dst ok t).2 := by
  unfold stepRenamePath
  split
  · split
    · next hmove => exact moveUnder_posix h (Bool.and_eq_true_iff.mp hmove).2
    · exact h
  · have hstep : Posix ((fsDevice 0).step (.move src dst) ⟨ok, fun _ => false, none⟩ t).2 := step_posix h
    exact hstep

/-- **Every call keeps a file system one that can be.** -/
theorem stepTree_posix (newMode : Nat) (o : Op) (e : Turn o) {t : Fs} (h : Posix t) :
    Posix (stepTree newMode o e t).2 := by
  cases o with
  | io o => exact Copy.stepTree_posix newMode o e h
  | lstat path => exact h
  | unlink path => exact stepUnlink_posix h path e
  | rmdir path => exact stepRmdir_posix h path e
  | rename src dst => exact stepRenamePath_posix h src dst e
  | readFile path => exact h
  | awaitExit pid => exact h
  | spawn path => exact h

def device (newMode : Nat) : Device Op Res Outcome Volume where
  step o e s :=
    ((stepTree newMode o (e o) s.1).1, ⟨(stepTree newMode o (e o) s.1).2, stepTree_posix newMode o (e o) s.2⟩)

theorem device_step {newMode : Nat} {o : Op} {e : Outcome} {s : Volume} {r : Res o} {t : Fs}
    (h : stepTree newMode o (e o) s.1 = (r, t)) :
    ((device newMode).step o e s).1 = r ∧ ((device newMode).step o e s).2.1 = t :=
  ⟨congrArg Prod.fst h, congrArg Prod.snd h⟩

/-- A call without effect. -/
theorem device_step_same {newMode : Nat} {o : Op} {e : Outcome} {s : Volume} {r : Res o}
    (h : stepTree newMode o (e o) s.1 = (r, s.1)) : (device newMode).step o e s = (r, s) :=
  Prod.ext (device_step h).1 (Subtype.ext (device_step h).2)

/-! ## Undisturbed calls -/

/-- The environment does not let this call fail. -/
def fineTurn : (o : Op) → Turn o → Prop
  | .io o, e => Copy.fineTurn o e
  | .lstat _, ok => ok = true
  | .unlink _, ok => ok = true
  | .rmdir _, ok => ok = true
  | .rename _ _, ok => ok = true
  | .readFile _, e => e = .whole
  | .awaitExit _, gone => gone = true
  | .spawn _, ok => ok = true

/-- The environment lets no call fail, if `strict` asks for it. With `strict` true this is what a run is assumed to meet
    that is to succeed; with `strict` false it says nothing, and the same lemmas speak of all runs. -/
def Undisturbed (strict : Prop) (e : Outcome) : Prop := strict → ∀ o, fineTurn o (e o)

/-- No call fails, and all that is written comes to the file at once: the outcome of the runs in the samples. -/
def fineOutcome : Outcome
  | .io (.fs _) => okOutcome
  | .io (.opendir _) => some ([], none)
  | .io (.stat _) => true
  | .io (.fopenRead _) => true
  | .io (.fopenWrite _) => true
  | .io (.fread _ _) => none
  | .io (.fwrite _ block) => (true, block)
  | .io (.fclose _ _) => none
  | .io (.remove _) => true
  | .lstat _ => true
  | .unlink _ => true
  | .rmdir _ => true
  | .rename _ _ => true
  | .readFile _ => .whole
  | .awaitExit _ => true
  | .spawn _ => true

theorem undisturbed_fineOutcome (strict : Prop) : Undisturbed strict fineOutcome := by
  intro _ o
  cases o with
  | io o =>
      cases o with
      | opendir path => exact ⟨[], rfl⟩
      | _ => rfl
  | _ => rfl

end Sys

abbrev SysProg := Prog Sys.Op Sys.Res

/-- Performs one call. -/
abbrev Sys.ask (o : Sys.Op) : SysProg (Sys.Res o) := Prog.perform o

end LibUpdate
