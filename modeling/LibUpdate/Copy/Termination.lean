import LibUpdate.Copy.Model

/-!
# `Copy.Termination` — copying a tree comes to an end (`update_ops.c`, POSIX build)

`stat` follows symbolic links, so that a directory may be its own descendant, and the copy may lie in what is
copied: nothing in the file system bounds the recursion of `copy_tree_posix`. Here it is run with fuel, and
`none` says that the fuel ran out. What bounds it is the text of the path: a directory that is entered has a
longer one, and `join_path2` makes none of `pathMax` bytes. Whatever the operations answer, and however the
answers change as the copy goes on, fuel for the bytes that are left is enough.
-/

namespace LibUpdate

open Copy (ask)

/-! ## The recursion with fuel -/

/-- What the loop of `copy_tree_posix` does for an entry, where `copyDir` may run out of fuel. -/
def copyEntryFuel (copyDir : Bytes → Bytes → CopyProg (Option Bool)) (overlay soft : Bool)
    (srcDir dstDir name : Bytes) : CopyProg (Option Bool) :=
  match joinPath2 srcDir name with
  | none => pure (some false)
  | some srcPath => do
      let isDir ← ask (.stat srcPath)
      if isDir then
        match joinPath2 dstDir name with
        | none => pure (some false)
        | some dstPath => copyDir srcPath dstPath
      else
        match (stageOverlayDstLeaf name overlay).bind (joinPath2 dstDir) with
        | none => pure (some false)
        | some dstPath => do
            let copied ← copyFileRetries srcPath dstPath
            pure (some (copied || soft))

/-- The loop of `copy_tree_posix`. -/
def copyEntriesFuel (copyDir : Bytes → Bytes → CopyProg (Option Bool)) (overlay soft : Bool)
    (srcDir dstDir : Bytes) : List Bytes → CopyProg (Option Bool)
  | [] => pure (some true)
  | name :: names =>
      if Copy.isEntry name then do
        let done ← copyEntryFuel copyDir overlay soft srcDir dstDir name
        match done with
        | some true => copyEntriesFuel copyDir overlay soft srcDir dstDir names
        | some false => pure (some false)
        | none => pure none
      else copyEntriesFuel copyDir overlay soft srcDir dstDir names

/-- `copy_tree_posix`: `none` where the calls nest deeper than `fuel`. -/
def copyTreeFuel (overlay soft : Bool) : Nat → Bytes → Bytes → CopyProg (Option Bool)
  | 0, _, _ => pure none
  | fuel + 1, srcDir, dstDir => do
      let made ← Copy.fs (createDirectoryRecursive dstDir)
      if made then
        let listing ← ask (.opendir srcDir)
        match listing with
        | none => pure (some false)
        | some (names, failed) =>
            let done ← copyEntriesFuel (copyTreeFuel overlay soft fuel) overlay soft srcDir dstDir names
            pure (done.map fun done => done && !failed)
      else pure (some false)

/-! ## Fuel for the bytes that are left -/

/-- **Every directory that is entered has a longer path**, and there is a bound to them. -/
theorem joinPath2_longer {srcDir name path : Bytes} (h : joinPath2 srcDir name = some path) :
    srcDir.length < path.length ∧ path.length < pathMax := by
  obtain ⟨hmax, rfl⟩ := snprintf_eq_some.mp h
  refine ⟨?_, hmax⟩
  have hslash : (ascii "/").length = 1 := rfl
  rw [List.length_append, List.length_append, hslash]
  omega

/-- The fuel does not run out in `p`, which is `q`. -/
def Finishes (p : CopyProg (Option Bool)) (q : CopyProg Bool) : Prop := p = q >>= fun done => pure (some done)

theorem Finishes.ret (done : Bool) : Finishes (pure (some done)) (pure done) := rfl

/-- What comes before is the same program in both. -/
theorem Finishes.bind {α : Type} (first : CopyProg α) {f : α → CopyProg (Option Bool)} {g : α → CopyProg Bool}
    (h : ∀ a, Finishes (f a) (g a)) : Finishes (first >>= f) (first >>= g) := by
  unfold Finishes
  rw [Prog.bind_assoc]
  exact congrArg (first >>= ·) (funext h)

/-- A part that may run out of fuel, and does not. -/
theorem Finishes.seq {p : CopyProg (Option Bool)} {q : CopyProg Bool} (hp : Finishes p q)
    {f : Option Bool → CopyProg (Option Bool)} {g : Bool → CopyProg Bool}
    (h : ∀ done, Finishes (f (some done)) (g done)) : Finishes (p >>= f) (q >>= g) := by
  rw [hp, Prog.bind_assoc]
  exact .bind q h

variable {overlay soft : Bool} {srcDir dstDir : Bytes} {copyDirFuel : Bytes → Bytes → CopyProg (Option Bool)}
  {copyDir : Bytes → Bytes → CopyProg Bool}

/-- An entry calls `copyDir` for a longer path only. -/
theorem copyEntryFuel_finishes {name : Bytes}
    (h : ∀ srcPath dstPath, srcDir.length < srcPath.length → srcPath.length < pathMax →
      Finishes (copyDirFuel srcPath dstPath) (copyDir srcPath dstPath)) :
    Finishes (copyEntryFuel copyDirFuel overlay soft srcDir dstDir name)
      (copyEntry copyDir overlay soft srcDir dstDir name) := by
  unfold copyEntryFuel copyEntry
  cases hsrc : joinPath2 srcDir name with
  | none => exact .ret false
  | some srcPath =>
      obtain ⟨hlonger, hmax⟩ := joinPath2_longer hsrc
      refine .bind _ fun isDir => ?_
      cases isDir with
      | true =>
          rw [if_pos rfl, if_pos rfl]
          cases joinPath2 dstDir name with
          | none => exact .ret false
          | some dstPath => exact h srcPath dstPath hlonger hmax
      | false =>
          rw [if_neg (by simp), if_neg (by simp)]
          cases (stageOverlayDstLeaf name overlay).bind (joinPath2 dstDir) with
          | none => exact .ret false
          | some dstPath => exact .bind _ fun copied => .ret (copied || soft)

theorem copyEntriesFuel_finishes
    (h : ∀ srcPath dstPath, srcDir.length < srcPath.length → srcPath.length < pathMax →
      Finishes (copyDirFuel srcPath dstPath) (copyDir srcPath dstPath)) (names : List Bytes) :
    Finishes (copyEntriesFuel copyDirFuel overlay soft srcDir dstDir names)
      (copyEntries copyDir overlay soft srcDir dstDir names) := by
  induction names with
  | nil => exact .ret true
  | cons name names ih =>
      unfold copyEntriesFuel copyEntries
      split
      · refine (copyEntryFuel_finishes h).seq fun done => ?_
        cases done with
        | true => exact ih
        | false => exact .ret false
      · exact ih

/-- One level of the recursion. -/
theorem copyTreeFuel_succ {fuel depth : Nat}
    (h : ∀ srcPath dstPath, srcDir.length < srcPath.length → srcPath.length < pathMax →
      Finishes (copyTreeFuel overlay soft fuel srcPath dstPath) (copyTreeAt overlay soft depth srcPath dstPath)) :
    Finishes (copyTreeFuel overlay soft (fuel + 1) srcDir dstDir)
      (copyTreeAt overlay soft (depth + 1) srcDir dstDir) := by
  unfold copyTreeFuel copyTreeAt
  refine .bind _ fun made => ?_
  cases made with
  | false => exact .ret false
  | true =>
      rw [if_pos rfl, if_pos rfl]
      refine .bind _ fun listing => ?_
      cases listing with
      | none => exact .ret false
      | some listing =>
          obtain ⟨names, failed⟩ := listing
          exact (copyEntriesFuel_finishes h names).seq fun done => .ret (done && !failed)

/-- The measure is the room that is left for the path: a call takes a byte of it, and without room no call is
    made. -/
theorem copyTreeFuel_finishes {fuel depth : Nat} (hfuel : pathMax ≤ fuel + 1 + srcDir.length)
    (hdepth : pathMax ≤ depth + 1 + srcDir.length) :
    Finishes (copyTreeFuel overlay soft (fuel + 1) srcDir dstDir)
      (copyTreeAt overlay soft (depth + 1) srcDir dstDir) := by
  induction fuel generalizing depth srcDir dstDir with
  | zero =>
      -- no path is longer than that of the source and shorter than the limit
      refine copyTreeFuel_succ fun srcPath dstPath hlonger hmax => ?_
      omega
  | succ fuel ih =>
      refine copyTreeFuel_succ fun srcPath dstPath hlonger hmax => ?_
      -- a call that is made leaves room for its own path, so the depth is not used up
      obtain ⟨depth, rfl⟩ : ∃ depth', depth = depth' + 1 := ⟨depth - 1, by omega⟩
      exact ih (by omega) (by omega)

/-- **Copying a tree comes to an end**, whatever the operations answer: with fuel for the bytes that the path of
    the source has left, the result is the one of `copyTreePosix`, since a call is made for a longer path only,
    and for none of `pathMax` bytes. -/
theorem copyTreePosix_terminates (overlay soft : Bool) (srcDir dstDir : Bytes) {σ : Type}
    (answer : (o : Copy.Op) → σ → Copy.Res o × σ) (s : σ) (more : Nat) :
    (copyTreeFuel overlay soft (pathMax - srcDir.length + 1 + more) srcDir dstDir).eval answer s
        = some ((copyTreePosix overlay soft srcDir dstDir).eval answer s)
      ∧ ∀ name srcPath, joinPath2 srcDir name = some srcPath →
        srcDir.length < srcPath.length ∧ srcPath.length < pathMax := by
  refine ⟨?_, fun name srcPath h => joinPath2_longer h⟩
  have hfinish : Finishes (copyTreeFuel overlay soft (pathMax - srcDir.length + more + 1) srcDir dstDir)
      (copyTreeAt overlay soft (4095 + 1) srcDir dstDir) :=
    copyTreeFuel_finishes (by omega) (Nat.le_add_right pathMax srcDir.length)
  rw [Nat.add_right_comm, hfinish]
  exact Prog.eval_bind_ret answer _ some s

end LibUpdate
