import LibUpdate.Foundation.CrashLogic
import LibUpdate.Foundation.FileTree
import LibUpdate.Foundation.Segments
import LibUpdate.Path

/-!
# `Platform.Fs` — the file system under `platform_fs.c` (POSIX build)

A file system without symbolic links is a tree under the components of the paths. The operations are the
system calls and the calls into miniz that write; each may fail, and a removal or a write that fails may
have done a part of its work. Which of this happens is the `FsOutcome`.

A directory carries no data here: nothing that is modelled reads its permission bits.
-/

namespace LibUpdate

/-- A file: its content and its permission bits. -/
structure FileNode where
  data : Bytes
  mode : Nat
  deriving DecidableEq, Repr

abbrev Fs := FileTree Bytes FileNode

/-- `is_path_sep` of the POSIX build. -/
def isPathSep (c : UInt8) : Bool := c == ch '/'

/-- Where the system finds a path. -/
def fsPath (p : Bytes) : List Bytes := resolvePath isPathSep p

/-- The content of the file at a path, if a file is there. -/
def dataAt (t : Fs) (q : List Bytes) : Option Bytes := (t.fileAt q).map FileNode.data

inductive FsOp where
  /-- `mkdir_one_posix`. -/
  | mkdir (path : Bytes)
  /-- `platform_fs_remove_path`. -/
  | remove (path : Bytes)
  /-- `mz_zip_reader_extract_to_file` for an entry with this content. -/
  | extractTo (data path : Bytes)
  /-- `platform_fs_chmod`. -/
  | chmod (path : Bytes) (mode : Nat)
  /-- `platform_fs_move_path`. -/
  | move (src dst : Bytes)
  deriving DecidableEq, Repr

/-- How an operation turns out. -/
structure FsOutcome where
  /-- The system does not make the operation fail. -/
  ok : Bool
  /-- What a failing removal has removed, with what was below it. -/
  removed : List Bytes → Bool
  /-- What a failing extraction has written, if it has opened its file. -/
  written : Option Bytes

/-- The operation does what it is asked to. -/
def okOutcome : FsOutcome := ⟨true, fun _ => false, none⟩

/-- Every operation answers whether it succeeded. -/
abbrev FsRes : FsOp → Type := fun _ => Bool

abbrev FsProg := Prog FsOp FsRes

/-! ## The operations -/

/-- Creates a directory, or finds one. -/
def stepMkdir (path : Bytes) (e : FsOutcome) (t : Fs) : Bool × Fs :=
  if e.ok && t.isDir (fsPath path) then (true, t)
  else if e.ok && (t.get (fsPath path)).isNone && t.isDir (fsPath path).dropLast then
    (true, t.set (fsPath path) .dir)
  else (false, t)

/-- What a failing removal of `p` takes away: paths strictly below `p`, each with what is below it. -/
def partlyGone (p : List Bytes) (removed : List Bytes → Bool) (q : List Bytes) : Bool :=
  (List.range (q.length + 1)).any fun n =>
    p.isPrefixOf (q.take n) && p.length < n && n ≤ q.length && removed (q.take n)

/-- Removes a file, or a directory with everything below it. -/
def stepRemove (path : Bytes) (e : FsOutcome) (t : Fs) : Bool × Fs :=
  if (t.get (fsPath path)).isNone then (false, t)
  else if e.ok then (true, t.removeUnder (fsPath path))
  else (false, t.prune (partlyGone (fsPath path) e.removed))

/-- `fopen` with `"wb"` finds or makes a file: no directory is in its place, and it lies in one. -/
def canOpen (t : Fs) (p : List Bytes) : Bool := !t.isDir p && t.isDir p.dropLast

/-- Writes a file; one that is there keeps its permission bits. -/
def writeFile (newMode : Nat) (t : Fs) (p : List Bytes) (data : Bytes) : Fs :=
  t.set p (.file ⟨data, ((t.fileAt p).map FileNode.mode).getD newMode⟩)

/-- Stores through an open stream: the file is there. -/
def storeFile (t : Fs) (p : List Bytes) (data : Bytes) : Fs :=
  match t.fileAt p with
  | some f => t.set p (.file { f with data })
  | none => t

/-- `fclose`: what was written, where all of it was, comes to the file; or the flush fails and leaves a part. -/
def stepFclose (path : Bytes) (written failed : Option Bytes) (t : Fs) : Bool × Fs :=
  match failed, written with
  | some part, _ => (false, storeFile t (fsPath path) part)
  | none, some data => (true, storeFile t (fsPath path) data)
  | none, none => (true, t)

def stepExtractTo (newMode : Nat) (data path : Bytes) (e : FsOutcome) (t : Fs) : Bool × Fs :=
  if canOpen t (fsPath path) then
    if e.ok then (true, writeFile newMode t (fsPath path) data)
    else
      match e.written with
      | none => (false, t)
      | some part => (false, writeFile newMode t (fsPath path) part)
  else (false, t)

def stepChmod (path : Bytes) (mode : Nat) (e : FsOutcome) (t : Fs) : Bool × Fs :=
  if e.ok then
    if t.isDir (fsPath path) then (true, t)
    else
      match t.fileAt (fsPath path) with
      | some f => (true, t.set (fsPath path) (.file { f with mode }))
      | none => (false, t)
  else (false, t)

/-- `rename` of a file. The callers rename nothing but the file they have just written; a directory as the
    source is taken to fail. -/
def stepRename (src dst : Bytes) (e : FsOutcome) (t : Fs) : Bool × Fs :=
  match t.fileAt (fsPath src) with
  | none => (false, t)
  | some f =>
      if e.ok && canOpen t (fsPath dst) then
        (true, (t.removeUnder (fsPath src)).set (fsPath dst) (.file f))
      else (false, t)

/-- The device; `newMode` are the permission bits of a new file. -/
def fsDevice (newMode : Nat) : Device FsOp FsRes FsOutcome Fs where
  step
    | .mkdir path => stepMkdir path
    | .remove path => stepRemove path
    | .extractTo data path => stepExtractTo newMode data path
    | .chmod path mode => stepChmod path mode
    | .move src dst => stepRename src dst

/-! ## What an operation changes -/

/-- The paths that an operation creates, writes, changes, moves or removes. -/
def FsOp.paths : FsOp → List Bytes
  | .mkdir path => [path]
  | .remove path => [path]
  | .extractTo _ path => [path]
  | .chmod path _ => [path]
  | .move src dst => [src, dst]

/-- `mkdir` finds a directory, makes one where nothing was, or fails. -/
theorem stepMkdir_cases (path : Bytes) (e : FsOutcome) (t : Fs) :
    (stepMkdir path e t = (true, t) ∧ t.isDir (fsPath path) = true)
      ∨ (stepMkdir path e t = (true, t.set (fsPath path) .dir) ∧ t.get (fsPath path) = none
          ∧ t.isDir (fsPath path) = false ∧ t.isDir (fsPath path).dropLast = true)
      ∨ stepMkdir path e t = (false, t) := by
  unfold stepMkdir
  split
  · next h => exact Or.inl ⟨rfl, (Bool.and_eq_true_iff.mp h).2⟩
  next hdir =>
  split
  · next h =>
    simp only [Bool.and_eq_true, Option.isNone_iff_eq_none] at h
    simp only [h.1.1, Bool.true_and, Bool.not_eq_true] at hdir
    exact Or.inr (Or.inl ⟨rfl, h.1.2, hdir, h.2⟩)
  · exact Or.inr (Or.inr rfl)

theorem partlyGone_below {p q : List Bytes} {removed : List Bytes → Bool}
    (h : partlyGone p removed q = true) : p <+: q := by
  obtain ⟨n, _, hn⟩ := List.any_eq_true.mp h
  simp only [Bool.and_eq_true] at hn
  exact (List.isPrefixOf_iff_prefix.mp hn.1.1.1).trans (List.take_prefix n q)

theorem stepRemove_frame {path : Bytes} {e : FsOutcome} {t : Fs} {q : List Bytes}
    (h : ¬ fsPath path <+: q) : (stepRemove path e t).2.get q = t.get q := by
  unfold stepRemove
  split; · rfl
  split
  · rw [FileTree.get_removeUnder, if_neg h]
  · rw [FileTree.get_prune, if_neg (fun hgone => h (partlyGone_below hgone))]

theorem writeFile_frame {newMode : Nat} {t : Fs} {p q : List Bytes} {data : Bytes} (h : q ≠ p) :
    (writeFile newMode t p data).get q = t.get q := by
  rw [writeFile, FileTree.get_set, if_neg h]

theorem storeFile_frame {t : Fs} {p q : List Bytes} (data : Bytes) (h : q ≠ p) :
    (storeFile t p data).get q = t.get q := by
  unfold storeFile
  split
  · rw [FileTree.get_set, if_neg h]
  · rfl

theorem fileAt_set (t : Fs) (p : List Bytes) (f : FileNode) : (t.set p (.file f)).fileAt p = some f := by
  unfold FileTree.fileAt
  rw [FileTree.get_set, if_pos rfl]

/-- What is stored in a file that is there is in the file. -/
theorem storeFile_fileAt {t : Fs} {p : List Bytes} {f : FileNode} (h : t.fileAt p = some f) (data : Bytes) :
    (storeFile t p data).fileAt p = some { f with data } := by
  unfold storeFile
  rw [h]
  exact fileAt_set _ _ _

theorem stepFclose_frame {path : Bytes} {written failed : Option Bytes} {t : Fs} {q : List Bytes}
    (h : q ≠ fsPath path) : (stepFclose path written failed t).2.get q = t.get q := by
  unfold stepFclose
  split
  · exact storeFile_frame _ h
  · exact storeFile_frame _ h
  · rfl

/-- **Frame.** An operation changes nothing but at its paths and below them. -/
theorem step_frame {newMode : Nat} {o : FsOp} {e : FsOutcome} {t : Fs} {q : List Bytes}
    (h : ∀ p ∈ o.paths, ¬ fsPath p <+: q) : ((fsDevice newMode).step o e t).2.get q = t.get q := by
  have hne : ∀ p ∈ o.paths, q ≠ fsPath p := by
    rintro p hp rfl
    exact h p hp (List.prefix_refl _)
  cases o with
  | mkdir path =>
      show (stepMkdir path e t).2.get q = _
      rcases stepMkdir_cases path e t with ⟨heq, _⟩ | ⟨heq, _⟩ | heq
      · rw [heq]
      · rw [heq, FileTree.get_set, if_neg (hne path List.mem_cons_self)]
      · rw [heq]
  | remove path => exact stepRemove_frame (h path List.mem_cons_self)
  | extractTo data path =>
      show (stepExtractTo newMode data path e t).2.get q = _
      unfold stepExtractTo
      split
      · split
        · exact writeFile_frame (hne path List.mem_cons_self)
        · split
          · rfl
          · exact writeFile_frame (hne path List.mem_cons_self)
      · rfl
  | chmod path mode =>
      show (stepChmod path mode e t).2.get q = _
      unfold stepChmod
      split
      · split; · rfl
        split
        · rw [FileTree.get_set, if_neg (hne path List.mem_cons_self)]
        · rfl
      · rfl
  | move src dst =>
      show (stepRename src dst e t).2.get q = _
      unfold stepRename
      split; · rfl
      split
      · rw [FileTree.get_set, if_neg (hne dst (by simp [FsOp.paths])), FileTree.get_removeUnder,
          if_neg (h src List.mem_cons_self)]
      · rfl

theorem canOpen_iff {t : Fs} {p : List Bytes} :
    canOpen t p = true ↔ t.isDir p = false ∧ t.isDir p.dropLast = true := by
  simp [canOpen]

/-! ### The file system stays a tree -/

theorem writeFile_wellFormed {newMode : Nat} {t : Fs} (h : t.WellFormed) {p : List Bytes} (hopen : canOpen t p = true)
    (data : Bytes) : (writeFile newMode t p data).WellFormed := by
  obtain ⟨hfile, hparent⟩ := canOpen_iff.mp hopen
  exact h.set hparent hfile

theorem stepMkdir_wellFormed {t : Fs} (h : t.WellFormed) (path : Bytes) (e : FsOutcome) :
    (stepMkdir path e t).2.WellFormed := by
  rcases stepMkdir_cases path e t with ⟨heq, _⟩ | ⟨heq, _, hdir, hparent⟩ | heq
  · rwa [heq]
  · rw [heq]
    exact h.set hparent hdir
  · rwa [heq]

/-- With a path that is gone, what is below it is gone. -/
theorem partlyGone_append {p q : List Bytes} {removed : List Bytes → Bool} (h : partlyGone p removed q = true)
    (x : Bytes) : partlyGone p removed (q ++ [x]) = true := by
  obtain ⟨n, hn, hgone⟩ := List.any_eq_true.mp h
  rw [List.mem_range] at hn
  refine List.any_eq_true.mpr ⟨n, ?_, ?_⟩
  · rw [List.mem_range, List.length_append]
    omega
  · rw [List.take_append_of_le_length (by omega)]
    simp only [Bool.and_eq_true, decide_eq_true_eq, List.length_append] at hgone ⊢
    exact ⟨⟨hgone.1.1, by omega⟩, hgone.2⟩

theorem stepRemove_wellFormed {t : Fs} (h : t.WellFormed) (path : Bytes) (e : FsOutcome) :
    (stepRemove path e t).2.WellFormed := by
  unfold stepRemove
  split; · exact h
  split
  · exact h.removeUnder _
  · apply h.prune
    intro q x hq
    exact partlyGone_append hq x

theorem stepExtractTo_wellFormed {newMode : Nat} {t : Fs} (h : t.WellFormed) (data path : Bytes) (e : FsOutcome) :
    (stepExtractTo newMode data path e t).2.WellFormed := by
  unfold stepExtractTo
  split
  · next hopen =>
    split
    · exact writeFile_wellFormed h hopen data
    · split
      · exact h
      · next part _ => exact writeFile_wellFormed h hopen part
  · exact h

theorem stepChmod_wellFormed {t : Fs} (h : t.WellFormed) (path : Bytes) (mode : Nat) (e : FsOutcome) :
    (stepChmod path mode e t).2.WellFormed := by
  unfold stepChmod
  split
  · split; · exact h
    next hdir =>
    have hdir : t.isDir (fsPath path) = false := by simpa using hdir
    split
    · next f hf =>
      -- the file is put back where it was, and there it lies in a directory
      exact h.set (h.isDir_dropLast (FileTree.get_of_fileAt hf)) hdir
    · exact h
  · exact h

theorem stepRename_wellFormed {t : Fs} (h : t.WellFormed) (src dst : Bytes) (e : FsOutcome) :
    (stepRename src dst e t).2.WellFormed := by
  unfold stepRename
  split; · exact h
  next f hf =>
  split
  · next hopen =>
    obtain ⟨hfile, hparent⟩ := canOpen_iff.mp (Bool.and_eq_true_iff.mp hopen).2
    have hremoved : (t.removeUnder (fsPath src)).WellFormed := h.removeUnder (fsPath src)
    apply hremoved.set
    · -- the target's directory does not go away with the source, which is a file
      rwa [FileTree.isDir_removeUnder (h.not_prefix_of_isDir hf hparent)]
    · by_cases hbelow : fsPath src <+: fsPath dst
      · rw [Bool.eq_false_iff, ne_eq, FileTree.isDir_iff, FileTree.get_removeUnder, if_pos hbelow]
        rintro (hroot | hdir)
        · exact FileTree.ne_nil_of_isDir_eq_false hfile hroot
        · cases hdir
      · rwa [FileTree.isDir_removeUnder hbelow]
  · exact h

/-- **Every operation keeps the file system a tree of directories.** -/
theorem step_wellFormed {newMode : Nat} {o : FsOp} {e : FsOutcome} {t : Fs} (h : t.WellFormed) :
    ((fsDevice newMode).step o e t).2.WellFormed := by
  cases o with
  | mkdir path => exact stepMkdir_wellFormed h path e
  | remove path => exact stepRemove_wellFormed h path e
  | extractTo data path => exact stepExtractTo_wellFormed h data path e
  | chmod path mode => exact stepChmod_wellFormed h path mode e
  | move src dst => exact stepRename_wellFormed h src dst e

/-! ## What an operation that succeeds does -/

section

variable {newMode : Nat} {s t : Fs} {α : Type}

/-- From `s` to `t` nothing but directories where nothing was. -/
def Grown (s t : Fs) : Prop := ∀ q, t.get q = s.get q ∨ (s.get q = none ∧ t.get q = some .dir)

/-- From `s` to `t` no content and no directory has changed. -/
structure SameData (s t : Fs) : Prop where
  data : ∀ q, dataAt t q = dataAt s q
  dir : ∀ q, t.isDir q = s.isDir q

theorem SameData.refl (s : Fs) : SameData s s := ⟨fun _ => rfl, fun _ => rfl⟩

theorem dataAt_congr {q : List Bytes} (h : t.get q = s.get q) : dataAt t q = dataAt s q := by
  unfold dataAt FileTree.fileAt
  rw [h]

/-- Where there is content, there is something. -/
theorem isSome_of_dataAt {q : List Bytes} (h : (dataAt s q).isSome) : (s.get q).isSome := by
  rw [dataAt, Option.isSome_map] at h
  obtain ⟨f, hf⟩ := Option.isSome_iff_exists.mp h
  rw [FileTree.get_of_fileAt hf]
  rfl

theorem fileAt_isSome_of_dataAt {q : List Bytes} {data : Bytes} (h : dataAt s q = some data) :
    (s.fileAt q).isSome := by
  obtain ⟨f, hf, _⟩ := Option.map_eq_some_iff.mp h
  exact Option.isSome_of_eq_some hf

theorem isDir_congr {q : List Bytes} (h : t.get q = s.get q) : t.isDir q = s.isDir q := by
  unfold FileTree.isDir
  rw [h]

theorem Grown.refl (s : Fs) : Grown s s := fun _ => Or.inl rfl

theorem Grown.trans {u : Fs} (h₁ : Grown s t) (h₂ : Grown t u) : Grown s u := by
  intro q
  rcases h₂ q with h | ⟨hnone, hdir⟩
  · rw [h]
    exact h₁ q
  · rcases h₁ q with h | ⟨_, hdir'⟩
    · exact Or.inr ⟨h.symm.trans hnone, hdir⟩
    · rw [hdir'] at hnone
      cases hnone

theorem Grown.dataAt_eq (h : Grown s t) (q : List Bytes) : dataAt t q = dataAt s q := by
  rcases h q with heq | ⟨hnone, hdir⟩
  · exact dataAt_congr heq
  · unfold dataAt FileTree.fileAt
    rw [hnone, hdir]

theorem Grown.isDir (h : Grown s t) {q : List Bytes} (hq : s.isDir q = true) : t.isDir q = true := by
  rw [FileTree.isDir_iff] at hq ⊢
  refine hq.imp_right fun hdir => ?_
  rcases h q with heq | ⟨hnone, _⟩
  · rw [heq, hdir]
  · rw [hdir] at hnone
    cases hnone

theorem stepMkdir_grown {path : Bytes} {e : FsOutcome} {r : Bool} (h : stepMkdir path e s = (r, t)) :
    Grown s t ∧ (r = true → t.isDir (fsPath path) = true) := by
  rcases stepMkdir_cases path e s with ⟨heq, hdir⟩ | ⟨heq, hnone, _⟩ | heq
  · cases heq.symm.trans h
    exact ⟨.refl s, fun _ => hdir⟩
  · cases heq.symm.trans h
    refine ⟨fun q => ?_, fun _ => ?_⟩
    · rw [FileTree.get_set]
      split
      · next hq => exact Or.inr ⟨hq ▸ hnone, rfl⟩
      · exact Or.inl rfl
    · rw [FileTree.isDir_iff, FileTree.get_set, if_pos rfl]
      exact Or.inr rfl
  · cases heq.symm.trans h
    exact ⟨.refl s, fun hr => by cases hr⟩

theorem stepExtractTo_ok {data path : Bytes} {e : FsOutcome} (h : stepExtractTo newMode data path e s = (true, t)) :
    canOpen s (fsPath path) = true ∧ t = writeFile newMode s (fsPath path) data := by
  unfold stepExtractTo at h
  split at h
  · next hopen =>
    split at h
    · cases h
      exact ⟨hopen, rfl⟩
    · split at h <;> cases h
  · cases h

theorem stepChmod_same {path : Bytes} {mode : Nat} {e : FsOutcome} {r : Bool}
    (h : stepChmod path mode e s = (r, t)) : SameData s t := by
  unfold stepChmod at h
  split at h
  · split at h
    · cases h
      exact ⟨fun _ => rfl, fun _ => rfl⟩
    next hdir =>
    split at h
    · next f hf =>
      cases h
      constructor
      · intro q
        by_cases hq : q = fsPath path
        · subst hq
          unfold dataAt
          rw [hf]
          unfold FileTree.fileAt
          rw [FileTree.get_set, if_pos rfl]
          rfl
        · exact dataAt_congr (by rw [FileTree.get_set, if_neg hq])
      · intro q
        by_cases hq : q = fsPath path
        · subst hq
          have hdir : s.isDir (fsPath path) = false := by simpa using hdir
          rw [hdir, Bool.eq_false_iff, ne_eq, FileTree.isDir_iff, FileTree.get_set, if_pos rfl]
          rintro (hroot | hcase)
          · exact FileTree.ne_nil_of_isDir_eq_false hdir hroot
          · cases hcase
        · exact isDir_congr (by rw [FileTree.get_set, if_neg hq])
    · cases h
      exact ⟨fun _ => rfl, fun _ => rfl⟩
  · cases h
    exact ⟨fun _ => rfl, fun _ => rfl⟩

theorem stepRename_ok {src dst : Bytes} {e : FsOutcome} (h : stepRename src dst e s = (true, t)) :
    ∃ f, s.fileAt (fsPath src) = some f ∧ s.isDir (fsPath dst) = false
      ∧ t = (s.removeUnder (fsPath src)).set (fsPath dst) (.file f) := by
  unfold stepRename at h
  split at h; · cases h
  next f hf =>
  split at h
  · next hopen =>
    cases h
    exact ⟨f, hf, (canOpen_iff.mp (Bool.and_eq_true_iff.mp hopen).2).1, rfl⟩
  · cases h

end

/-! ## Programs -/

/-- The paths at which `platform_fs_create_directory_recursive` cuts, in order. -/
def parentDirs (path : Bytes) : List Bytes :=
  let start := if path.head?.any isPathSep then 1 else 0
  ((List.range path.length).filter fun i => start < i && path[i]?.any isPathSep).map path.take

/-- Creates the directories in order, up to the first failure. -/
def mkdirAll : List Bytes → FsProg Bool
  | [] => pure true
  | dir :: dirs => do
      let made ← Prog.perform (.mkdir dir)
      if made then mkdirAll dirs else pure false

/-- `platform_fs_create_directory_recursive`. -/
def createDirectoryRecursive (path : Bytes) : FsProg Bool :=
  if path = [] then pure false
  else if path.length + 1 > pathMax then pure false
  else mkdirAll (parentDirs path ++ [path])

example : parentDirs (ascii "/a//b/c") = [ascii "/a", ascii "/a/", ascii "/a//b"] := by decide

/-- The path goes on behind a place at which it is cut. -/
theorem mem_parentDirs {p q : Bytes} (h : q ∈ parentDirs p) : ∃ rest, p = q ++ ch '/' :: rest := by
  obtain ⟨i, hi, rfl⟩ := List.mem_map.mp h
  obtain ⟨_, hsep⟩ := List.mem_filter.mp hi
  rw [Bool.and_eq_true] at hsep
  cases hget : p[i]? with
  | none => rw [hget] at hsep; simp at hsep
  | some c =>
      rw [hget] at hsep
      obtain rfl : c = ch '/' := by simpa [isPathSep] using hsep.2
      refine ⟨p.drop (i + 1), ?_⟩
      obtain ⟨hlt, hc⟩ := List.getElem?_eq_some_iff.mp hget
      rw [← hc, List.getElem_cons_drop, List.take_append_drop]

variable {newMode : Nat} {α : Type}

/-- The program, if it returns, ends as `Q` says. -/
abbrev Yields (newMode : Nat) (Q : α → Fs → Prop) (p : FsProg α) (s : Fs) : Prop :=
  Safe (fsDevice newMode) anyContract Q p s

theorem yields_perform {Q : α → Fs → Prop} {o : FsOp} {f : Bool → FsProg α}
    (hf : ∀ e r t, (fsDevice newMode).step o e s = (r, t) → Yields newMode Q (f r) t) :
    Yields newMode Q (Prog.perform o >>= f) s :=
  fun e _ => ⟨trivial, trivial, hf e _ _ rfl⟩

theorem mkdirAll_yields (dirs : List Bytes) (s : Fs) :
    Yields newMode (fun ok t => Grown s t ∧ (ok = true → ∀ d ∈ dirs, t.isDir (fsPath d) = true))
      (mkdirAll dirs) s := by
  induction dirs generalizing s with
  | nil => exact ⟨.refl s, fun _ d hd => by cases hd⟩
  | cons d dirs ih =>
      refine yields_perform fun e made t hstep => ?_
      obtain ⟨hgrown, hdir⟩ := stepMkdir_grown hstep
      cases made with
      | false => exact ⟨hgrown, fun hok => by cases hok⟩
      | true =>
          refine (ih t).mono fun ok u hu => ⟨hgrown.trans hu.1, fun hok d' hd' => ?_⟩
          rcases List.mem_cons.mp hd' with rfl | hd'
          · exact hu.1.isDir (hdir rfl)
          · exact hu.2 hok d' hd'

theorem mkdirAll_atMost (dirs : List Bytes) : (mkdirAll dirs).AtMost dirs.length := by
  induction dirs with
  | nil => exact .ret
  | cons d dirs ih =>
      apply Prog.AtMost.perform
      intro made
      cases made with
      | true => exact ih
      | false => exact .ret

/-- `mkdir -p` succeeds only where each of its calls does. -/
theorem mkdirAll_calls {newMode : Nat} {dirs : List Bytes} {es : List FsOutcome} {s : Fs}
    (h : ((fsDevice newMode).run (mkdirAll dirs) es s).result = some true) :
    dirs.length ≤ es.length ∧ ∀ e ∈ es.take dirs.length, e.ok = true := by
  induction dirs generalizing es s with
  | nil => simp
  | cons d dirs ih =>
      obtain ⟨e, es', made, t, rfl, hstep, hrest, _⟩ := Device.result_perform _ h
      have hstep : stepMkdir d e s = (made, t) := hstep
      cases made with
      | false =>
          simp only [Bool.false_eq_true, if_false, Prog.pure_eq, Device.run_ret] at hrest
          cases hrest
      | true =>
          obtain ⟨hlen, hok⟩ := ih hrest
          have he : e.ok = true := by
            cases heq : e.ok with
            | true => rfl
            | false =>
                have hfail : stepMkdir d e s = (false, s) := by simp [stepMkdir, heq]
                cases hfail.symm.trans hstep
          refine ⟨Nat.succ_le_succ hlen, ?_⟩
          rw [List.length_cons, List.take_succ_cons, List.forall_mem_cons]
          exact ⟨he, hok⟩

/-- Also where it fails, `mkdir -p` has made nothing but directories. -/
theorem mkdirAll_final {newMode : Nat} (dirs : List Bytes) (es : List FsOutcome) (s : Fs) :
    Grown s ((fsDevice newMode).run (mkdirAll dirs) es s).final := by
  induction dirs generalizing es s with
  | nil => simpa [mkdirAll] using Grown.refl s
  | cons d dirs ih =>
      cases es with
      | nil => exact .refl s
      | cons e es =>
          rw [mkdirAll, Prog.perform_bind, Device.run_op_cons]
          have hfirst : Grown s (stepMkdir d e s).2 := (stepMkdir_grown rfl).1
          show Grown s ((fsDevice newMode).run (if (stepMkdir d e s).1 then mkdirAll dirs else pure false) es
            (stepMkdir d e s).2).final
          cases (stepMkdir d e s).1 with
          | true => exact hfirst.trans (ih es _)
          | false => simpa using hfirst

theorem createDirectoryRecursive_yields (path : Bytes) (s : Fs) :
    Yields newMode (fun ok t => Grown s t ∧ (ok = true → t.isDir (fsPath path) = true))
      (createDirectoryRecursive path) s := by
  unfold createDirectoryRecursive
  split; · exact ⟨.refl s, fun hok => by cases hok⟩
  split; · exact ⟨.refl s, fun hok => by cases hok⟩
  exact (mkdirAll_yields _ s).mono fun ok t h => ⟨h.1, fun hok => h.2 hok path (by simp)⟩

end LibUpdate
