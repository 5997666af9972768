import LibUpdate.Foundation.Bytes
import LibUpdate.Foundation.Machine

/-!
# `Platform.Spawn` — starting a program (POSIX build)

`platform_process_spawn_with_cwd` forks, and learns through a pipe whether the `execv` in the child came
off: the child's end closes by itself when the program starts, and carries a byte when it does not. Parent
and child then run side by side, so this is a machine of two parties. An act is one call of the parent, one
call of the child, or the child's death by a signal (or, once it runs the program, of its own).

Here: the parent returns with its memory and its descriptors released, and the program that runs is the one
asked for (`spawn_leaves_nothing`).
-/

namespace LibUpdate

namespace Spawn

/-- The values that are returned. -/
inductive Code where
  | ok
  | invalidArg
  | noMem
  | io
  deriving DecidableEq, Repr

/-- The arguments, `none` for `NULL`, and what the process has set for `SIGPIPE`. -/
structure Call where
  path : Option Bytes
  argv : Option (List Bytes)
  cwd : Option Bytes
  outPid : Bool
  ignoresSigpipe : Bool
  deriving DecidableEq, Repr

/-- The arguments that are refused. -/
def Call.refused (c : Call) : Bool :=
  c.path == none || c.path == some [] || c.argv == none || !c.outPid || c.argv == some []

def Call.program (c : Call) : Bytes := c.path.getD []

def Call.words (c : Call) : List Bytes := c.argv.getD []

/-- `cwd != NULL && cwd[0] != '\0'`. -/
def Call.entersDir (c : Call) : Bool := c.cwd != none && c.cwd != some []

/-- How a call of the system ends. `interrupted` is a failure with `EINTR`. -/
inductive Ending where
  | done
  | interrupted
  | failed
  deriving DecidableEq, Repr

/-- What `read` returned: `0`, `1` or `-1`. -/
inductive ReadResult where
  | endOfFile
  | byte
  | nothing
  deriving DecidableEq, Repr

/-- What the parent does next. -/
inductive Parent where
  | check
  | allocate
  | duplicate (i : Nat)
  | makePipe
  | fork
  | closeBoth
  | closeWrite
  | read
  | closeRead (rr : ReadResult)
  | wait
  | release (rc : Code)
  | returned (rc : Code)
  deriving DecidableEq, Repr

/-- What the child does next, before it runs the program. -/
inductive ChildCode where
  | signal
  | closeRead
  | setCloexec
  | chdir
  | exec
  | report
  | closeWrite
  | exit
  deriving DecidableEq, Repr

/-- A program as it was started. `dir` is `none` where the parent's directory was kept. -/
structure Image where
  path : Bytes
  argv : List Bytes
  dir : Option Bytes
  ignoresSigpipe : Bool
  deriving DecidableEq, Repr

inductive Child where
  | unborn
  | own (code : ChildCode)
  | image (i : Image)
  | dead
  | reaped
  deriving DecidableEq, Repr

structure St where
  parent : Parent
  /-- `av` and the strings in it are allocated. -/
  table : Bool
  copies : List Bytes
  /-- The descriptors that the parent has open. -/
  readEnd : Bool
  writeEnd : Bool
  /-- `*out_pid` is set. -/
  pidStored : Bool
  child : Child
  /-- The child's copy of `av`, its directory, and what it has set for `SIGPIPE`. -/
  childArgs : List Bytes
  childDir : Option Bytes
  childIgnores : Bool
  /-- The descriptors that the child has open, and whether `execv` closes the second. -/
  childRead : Bool
  childWrite : Bool
  cloexec : Bool
  /-- What is in the pipe. -/
  bytes : Nat
  /-- The program has been started. -/
  started : Bool
  deriving DecidableEq, Repr

inductive Act where
  | parent (e : Ending)
  | child (e : Ending)
  | dies
  deriving DecidableEq, Repr

def start : St where
  parent := .check
  table := false
  copies := []
  readEnd := false
  writeEnd := false
  pidStored := false
  child := .unborn
  childArgs := []
  childDir := none
  childIgnores := false
  childRead := false
  childWrite := false
  cloexec := false
  bytes := 0
  started := false

/-- The child is gone, and its descriptors are closed. -/
def St.childGone (s : St) : St := { s with child := .dead, childRead := false, childWrite := false }

/-- A call of the parent. `read` waits while the pipe is empty and can still be written to, and `waitpid`
while the child is there. -/
def parentStep (c : Call) (s : St) (e : Ending) : Option St :=
  match s.parent with
  | .check => some { s with parent := if c.refused then .returned .invalidArg else .allocate }
  | .allocate =>
      if e = .done then some { s with parent := .duplicate 0, table := true }
      else some { s with parent := .returned .noMem }
  | .duplicate i =>
      match c.words[i]? with
      | some word =>
          if e = .done then some { s with parent := .duplicate (i + 1), copies := s.copies ++ [word] }
          else some { s with parent := .release .noMem }
      | none => some { s with parent := .makePipe }
  | .makePipe =>
      if e = .done then some { s with parent := .fork, readEnd := true, writeEnd := true }
      else some { s with parent := .release .io }
  | .fork =>
      if e = .done then
        some { s with
          parent := .closeWrite
          child := .own .signal
          childArgs := s.copies
          childIgnores := c.ignoresSigpipe
          childRead := s.readEnd
          childWrite := s.writeEnd }
      else some { s with parent := .closeBoth }
  | .closeBoth => some { s with parent := .release .io, readEnd := false, writeEnd := false }
  | .closeWrite => some { s with parent := .read, writeEnd := false }
  | .read =>
      match e with
      | .done =>
          if 0 < s.bytes then some { s with parent := .closeRead .byte, bytes := s.bytes - 1 }
          else if s.writeEnd || s.childWrite then none
          else some { s with parent := .closeRead .endOfFile }
      | .interrupted => some s
      | .failed => some { s with parent := .closeRead .nothing }
  | .closeRead rr =>
      some { s with readEnd := false, parent := if rr = .endOfFile then .release .ok else .wait }
  | .wait =>
      -- Whatever `waitpid` returns, it is not called again.
      if e = .done then
        if s.child = .dead then some { s with parent := .release .io, child := .reaped } else none
      else some { s with parent := .release .io }
  | .release rc =>
      some { s with parent := .returned rc, table := false, copies := [], pidStored := rc == .ok }
  | .returned _ => none

/-- A call of the child, as long as it does not run the program. -/
def childStep (c : Call) (s : St) (e : Ending) : Option St :=
  match s.child with
  | .own .signal => some { s with child := .own .closeRead, childIgnores := false }
  | .own .closeRead => some { s with child := .own .setCloexec, childRead := false }
  | .own .setCloexec => some { s with child := .own .chdir, cloexec := e == .done }
  | .own .chdir =>
      -- A directory that cannot be entered does not stop the child.
      some { s with
        child := .own .exec
        childDir := if c.entersDir && e == .done then c.cwd else s.childDir }
  | .own .exec =>
      if e = .done then
        some { s with
          child := .image ⟨c.program, s.childArgs, s.childDir, s.childIgnores⟩
          childWrite := s.childWrite && !s.cloexec
          started := true }
      else some { s with child := .own .report }
  | .own .report =>
      if s.readEnd || s.childRead then
        some { s with child := .own .closeWrite, bytes := if e = .done then s.bytes + 1 else s.bytes }
      else if s.childIgnores then some { s with child := .own .closeWrite }
      else some s.childGone
  | .own .closeWrite => some { s with child := .own .exit, childWrite := false }
  | .own .exit => some s.childGone
  | _ => none

def step (c : Call) (s : St) : Act → Option St
  | .parent e => parentStep c s e
  | .child e => childStep c s e
  | .dies =>
      match s.child with
      | .own _ => some s.childGone
      | .image _ => some s.childGone
      | _ => none

/-- `platform_process_spawn_with_cwd`. -/
def machine (c : Call) : Machine St Act := ⟨step c⟩

variable {c : Call} {s t : St} {e : Ending}

/-- Every order of the steps of the two, and every failure. -/
def anything (_ : St) (_ : Act) : Bool := true

/-! ## A call that comes off, and one that does not -/

/-- `/u` with no more than its own name, in the parent's directory. -/
def sampleCall : Call := ⟨some [47, 117], some [[47, 117]], none, true, true⟩

/-- The parent up to the fork. -/
def sampleBegin : List Act := List.replicate 6 (.parent .done)

/-- The program starts while the parent is being interrupted. -/
def sampleStart : List Act :=
  sampleBegin ++ [.parent .done, .child .done, .parent .interrupted, .child .done, .child .done, .child .failed,
    .child .done] ++ List.replicate 3 (.parent .done)

/-- The program is not there. -/
def sampleMissing : List Act :=
  sampleBegin ++ [.child .done, .child .done, .child .done, .child .done, .child .failed, .parent .done,
    .child .done, .parent .done, .parent .done, .child .done, .child .done, .parent .done, .parent .done]

/-- Where a run of the sample ends. -/
def sampleEnd (acts : List Act) : St := ((machine sampleCall).run anything start acts).getD start

/-! ## What the parent holds -/

/-- `av`, the two ends of the pipe, and whether `*out_pid` is set. -/
def St.held (s : St) : Bool × Bool × Bool × Bool := (s.table, s.readEnd, s.writeEnd, s.pidStored)

def Parent.holds : Parent → Bool × Bool × Bool × Bool
  | .check => (false, false, false, false)
  | .allocate => (false, false, false, false)
  | .duplicate _ => (true, false, false, false)
  | .makePipe => (true, false, false, false)
  | .fork => (true, true, true, false)
  | .closeBoth => (true, true, true, false)
  | .closeWrite => (true, true, true, false)
  | .read => (true, true, false, false)
  | .closeRead _ => (true, true, false, false)
  | .wait => (true, false, false, false)
  | .release _ => (true, false, false, false)
  | .returned rc => (false, false, false, rc == .ok)

/-- The strings that are copied, where the code is not about to free them. -/
def Parent.copied (words : List Bytes) : Parent → Option (List Bytes)
  | .check => some []
  | .allocate => some []
  | .duplicate i => some (words.take i)
  | .makePipe => some words
  | .fork => some words
  | .returned _ => some []
  | _ => none

structure ParentTidy (c : Call) (s : St) : Prop where
  held : s.held = s.parent.holds
  copies : s.parent.copied c.words = some s.copies ∨ s.parent.copied c.words = none

/-- What the child's steps leave alone. -/
def St.parentSide (s : St) : Parent × List Bytes × (Bool × Bool × Bool × Bool) := (s.parent, s.copies, s.held)

theorem childStep_parentSide (h : childStep c s e = some t) : t.parentSide = s.parentSide := by
  unfold childStep at h
  split at h <;> grind [St.parentSide, St.held, St.childGone]

theorem step_dies (h : step c s .dies = some t) :
    t = s.childGone ∧ ((∃ code, s.child = .own code) ∨ ∃ i, s.child = .image i) := by
  simp only [step] at h
  split at h <;> simp_all

theorem take_next {words : List Bytes} {i : Nat} {word : Bytes} (h : words[i]? = some word) :
    words.take (i + 1) = words.take i ++ [word] := by
  rw [List.take_add_one, h]
  rfl

theorem take_last {words : List Bytes} {i : Nat} (h : words[i]? = none) : words.take i = words :=
  List.take_of_length_le (List.getElem?_eq_none_iff.mp h)

theorem ParentTidy.parentStep (hs : ParentTidy c s) (h : parentStep c s e = some t) : ParentTidy c t := by
  obtain ⟨hheld, hcopies⟩ := hs
  unfold Spawn.parentStep at h
  constructor
  · split at h <;> grind [St.held, Parent.holds]
  · split at h <;> grind [Parent.copied, take_next, take_last]

theorem ParentTidy.of_parentSide (hs : ParentTidy c s) (h : t.parentSide = s.parentSide) : ParentTidy c t := by
  simp only [St.parentSide, Prod.mk.injEq] at h
  obtain ⟨hp, hcopies, hheld⟩ := h
  refine ⟨?_, ?_⟩
  · rw [hheld, hp, hs.held]
  · rw [hp, hcopies]
    exact hs.copies

/-! ## What the child holds -/

def Child.holdsRead : Child → Bool
  | .own .signal => true
  | .own .closeRead => true
  | _ => false

/-- A program has the end of the pipe only where it could not be marked to be closed. -/
def Child.holdsWrite (cloexec : Bool) : Child → Bool
  | .own .exit => false
  | .own _ => true
  | .image _ => !cloexec
  | _ => false

/-- The directory that is asked for, or that of the parent. -/
def Call.mayEnter (c : Call) (dir : Option Bytes) : Prop := dir = none ∨ (c.entersDir = true ∧ dir = c.cwd)

structure ChildTidy (c : Call) (s : St) : Prop where
  readEnd : s.childRead = s.child.holdsRead
  writeEnd : s.childWrite = s.child.holdsWrite s.cloexec
  args : s.child ≠ .unborn → s.childArgs = c.words
  dir : c.mayEnter s.childDir
  sigpipe : ∀ code, s.child = .own code → code ≠ .signal → s.childIgnores = false
  image : ∀ i, s.child = .image i →
    i.path = c.program ∧ i.argv = c.words ∧ c.mayEnter i.dir ∧ i.ignoresSigpipe = false

theorem ChildTidy.childStep (hs : ChildTidy c s) (h : childStep c s e = some t) : ChildTidy c t := by
  obtain ⟨hread, hwrite, hargs, hdir, hsigpipe, himage⟩ := hs
  unfold Spawn.childStep at h
  constructor
  · split at h <;> grind [Child.holdsRead, St.childGone]
  · split at h <;> grind [Child.holdsWrite, St.childGone]
  · split at h <;> grind [St.childGone]
  · split at h <;> grind [Call.mayEnter, St.childGone]
  · split at h <;> grind [St.childGone]
  · split at h <;> grind [St.childGone]

/-- The parent starts the child with a copy of what it has, and buries it. -/
theorem ChildTidy.parentStep (hs : ChildTidy c s) (hp : ParentTidy c s) (h : parentStep c s e = some t) :
    ChildTidy c t := by
  obtain ⟨hread, hwrite, hargs, hdir, hsigpipe, himage⟩ := hs
  obtain ⟨hheld, hcopies⟩ := hp
  unfold Spawn.parentStep at h
  split at h
  case h_5 hfork =>
    simp only [hfork, St.held, Parent.holds, Parent.copied, Prod.mk.injEq] at hheld hcopies
    constructor <;> grind [Child.holdsRead, Child.holdsWrite]
  case h_10 hwait => constructor <;> grind [Child.holdsRead, Child.holdsWrite]
  all_goals constructor <;> grind

theorem ChildTidy.childGone (hs : ChildTidy c s) (hborn : s.child ≠ .unborn) : ChildTidy c s.childGone where
  readEnd := rfl
  writeEnd := rfl
  args _ := hs.args hborn
  dir := hs.dir
  sigpipe _ hcode := by cases hcode
  image _ hi := by cases hi

structure Tidy (c : Call) (s : St) : Prop where
  parent : ParentTidy c s
  child : ChildTidy c s

theorem tidy_start : Tidy c start where
  parent := ⟨rfl, Or.inl rfl⟩
  child := {
    readEnd := rfl
    writeEnd := rfl
    args := fun h => absurd rfl h
    dir := Or.inl rfl
    sigpipe := fun _ h => by cases h
    image := fun _ h => by cases h }

theorem Tidy.step {a : Act} (hs : Tidy c s) (h : step c s a = some t) : Tidy c t := by
  cases a with
  | parent e => exact ⟨hs.parent.parentStep h, hs.child.parentStep hs.parent h⟩
  | child e => exact ⟨hs.parent.of_parentSide (childStep_parentSide h), hs.child.childStep h⟩
  | dies =>
      obtain ⟨rfl, hc⟩ := step_dies h
      refine ⟨hs.parent.of_parentSide rfl, hs.child.childGone ?_⟩
      rcases hc with ⟨code, hc⟩ | ⟨i, hc⟩ <;> simp [hc]

theorem tidy_run {allowed : St → Act → Bool} {acts : List Act}
    (hrun : (machine c).run allowed start acts = some s) : Tidy c s :=
  Machine.run_invariant (Tidy c) (fun _ _ _ hs _ hstep => hs.step hstep) hrun tidy_start

/-- **Nothing is left behind.** In whatever order parent and child run and whatever fails: when the call
returns, its memory is freed, both ends of the pipe are closed, and `*out_pid` is set exactly on success.
And the program that runs is the one asked for, with exactly the words of `argv`, in the directory asked
for or the parent's, with the default for `SIGPIPE`, and without the reading end of the pipe; it has the
writing end only where `fcntl` failed. -/
theorem spawn_leaves_nothing {acts : List Act} (hrun : (machine c).run anything start acts = some s) :
    (∀ rc, s.parent = .returned rc →
        s.table = false ∧ s.copies = [] ∧ s.readEnd = false ∧ s.writeEnd = false
          ∧ (s.pidStored = true ↔ rc = .ok))
      ∧ ∀ i, s.child = .image i →
        (i.path = c.program ∧ i.argv = c.words ∧ c.mayEnter i.dir ∧ i.ignoresSigpipe = false)
          ∧ s.childRead = false ∧ s.childWrite = !s.cloexec := by
  obtain ⟨hparent, hchild⟩ := tidy_run hrun
  constructor
  · intro rc hrc
    have hheld := hparent.held
    have hcopies := hparent.copies
    simp only [hrc, St.held, Parent.holds, Parent.copied, Prod.mk.injEq] at hheld hcopies
    obtain ⟨htable, hread, hwrite, hpid⟩ := hheld
    refine ⟨htable, by simpa using hcopies.symm, hread, hwrite, ?_⟩
    rw [hpid, beq_iff_eq]
  · intro i hi
    have hread := hchild.readEnd
    have hwrite := hchild.writeEnd
    rw [hi] at hread hwrite
    exact ⟨hchild.image i hi, hread, hwrite⟩

theorem spawn_leaves_nothing_sample :
    (sampleEnd sampleStart).parent = .returned .ok ∧ (sampleEnd sampleStart).table = false
      ∧ (sampleEnd sampleStart).readEnd = false ∧ (sampleEnd sampleStart).writeEnd = false := by
  have hrun : (machine sampleCall).run anything start sampleStart = some (sampleEnd sampleStart) := by decide
  have hclean := (spawn_leaves_nothing hrun).1 .ok (by decide)
  exact ⟨by decide, hclean.1, hclean.2.2.1, hclean.2.2.2.1⟩

end Spawn

end LibUpdate
