import LibUpdate.Foundation.FileTree
import Mathlib.Data.List.Dedup

/-!
# `Foundation.Subtree` — a tree seen from one of its directories

The names in a directory are its `children`. A subtree can be looked at with its files under other names: `leaf`
gives the new name of a file, directories keep theirs, and `relabelled` is what is then found at a path below the
directory. Where no two entries of a directory come to the same name, each entry is found at its `target` and
nothing is found elsewhere (`relabelled_file`, `relabelled_dir`, `relabelled_eq_none`).
-/

namespace LibUpdate

namespace FileTree

variable {N D : Type} [DecidableEq N] {t : FileTree N D} {dir p q : List N} {x y : N}

/-! ## The names in a directory -/

/-- The names in a directory. -/
def children (t : FileTree N D) (dir : List N) : List N :=
  (t.filterMap fun e => if e.1.dropLast = dir then e.1.getLast? else none).dedup

theorem nodup_children (t : FileTree N D) (dir : List N) : (t.children dir).Nodup := List.nodup_dedup _

/-- A path that is listed holds something. -/
theorem get_isSome_iff : (t.get p).isSome ↔ ∃ n, (p, n) ∈ t := by
  induction t with
  | nil => simp
  | cons e t ih =>
      obtain ⟨q, n⟩ := e
      rw [get_cons]
      by_cases hp : p = q
      · subst hp
        simp
      · simp [hp, ih]

theorem mem_children : x ∈ t.children dir ↔ (t.get (dir ++ [x])).isSome := by
  rw [children, List.mem_dedup, List.mem_filterMap, get_isSome_iff]
  constructor
  · rintro ⟨⟨p, n⟩, hmem, hname⟩
    split at hname
    · next hdir =>
      refine ⟨n, ?_⟩
      rw [← hdir, List.dropLast_append_getLast? x hname]
      exact hmem
    · cases hname
  · rintro ⟨n, hmem⟩
    refine ⟨(dir ++ [x], n), hmem, ?_⟩
    simp

/-- The paths in a subtree. -/
def below (t : FileTree N D) (dir : List N) : List (List N) :=
  t.filterMap fun e => if dir <+: e.1 then some (e.1.drop dir.length) else none

theorem mem_below {q : List N} (h : (t.get (dir ++ q)).isSome) : q ∈ t.below dir := by
  obtain ⟨n, hn⟩ := get_isSome_iff.mp h
  refine List.mem_filterMap.mpr ⟨(dir ++ q, n), hn, ?_⟩
  rw [if_pos (List.prefix_append dir q), List.drop_left]

/-! ## Files and directories of a tree -/

theorem fileAt_eq_none_of_isDir (h : t.WellFormed) (hp : t.isDir p = true) : t.fileAt p = none := by
  unfold fileAt
  rcases isDir_iff.mp hp with rfl | hdir
  · rw [h.root]
  · rw [hdir]

/-- What is in a tree is a file or a directory. -/
theorem file_or_dir (h : (t.get p).isSome) : (∃ f, t.fileAt p = some f) ∨ t.isDir p = true := by
  obtain ⟨n, hn⟩ := Option.isSome_iff_exists.mp h
  cases n with
  | dir => exact Or.inr (isDir_iff.mpr (Or.inr hn))
  | file f =>
      refine Or.inl ⟨f, ?_⟩
      unfold fileAt
      rw [hn]

/-- There is nothing in what is no directory. -/
theorem WellFormed.get_eq_none (h : t.WellFormed) (hdir : t.isDir dir = false) (x : N) :
    t.get (dir ++ [x]) = none := by
  cases hget : t.get (dir ++ [x]) with
  | none => rfl
  | some n =>
      rw [h.parent dir x n hget] at hdir
      cases hdir

/-! ## Files under other names -/

section

variable (leaf : N → N)

/-- The name under which an entry is found: files are renamed. -/
def target (t : FileTree N D) (dir : List N) (x : N) : N := if t.isDir (dir ++ [x]) then x else leaf x

/-- The file that is found under the name `y` in a directory. -/
def relabelledIn (t : FileTree N D) (dir : List N) (y : N) : Option D :=
  (t.children dir).findSome? fun x => if leaf x = y then t.fileAt (dir ++ [x]) else none

/-- The file that is found at a path below a directory. -/
def relabelled (t : FileTree N D) (dir : List N) : List N → Option D
  | [] => none
  | [y] => t.relabelledIn leaf dir y
  | y :: z :: r => relabelled t (dir ++ [y]) (z :: r)

/-- In a directory no two entries come to the same name. -/
def DistinctIn (t : FileTree N D) (dir : List N) : Prop :=
  ∀ x y, (t.get (dir ++ [x])).isSome → (t.get (dir ++ [y])).isSome →
    t.target leaf dir x = t.target leaf dir y → x = y

/-- In no directory of the subtree two entries come to the same name. -/
def Distinct (t : FileTree N D) (dir : List N) : Prop := ∀ q, t.DistinctIn leaf (dir ++ q)

end

variable {leaf : N → N}

theorem Distinct.below (h : t.Distinct leaf dir) (x : N) : t.Distinct leaf (dir ++ [x]) := by
  intro q
  rw [List.append_assoc]
  exact h _

theorem Distinct.here (h : t.Distinct leaf dir) : t.DistinctIn leaf dir := by
  have hdir := h []
  rwa [List.append_nil] at hdir

theorem target_of_isDir (h : t.isDir (dir ++ [x]) = true) : t.target leaf dir x = x := if_pos h

theorem target_of_file (h : t.isDir (dir ++ [x]) = false) : t.target leaf dir x = leaf x := by
  rw [target, h]
  rfl

/-- A file is no directory. -/
theorem isDir_of_fileAt {f : D} (h : t.fileAt (dir ++ [x]) = some f) : t.isDir (dir ++ [x]) = false :=
  isDir_eq_false_of_fileAt (List.append_ne_nil_of_right_ne_nil _ (List.cons_ne_nil _ _)) h

theorem isSome_of_fileAt {f : D} (h : t.fileAt p = some f) : (t.get p).isSome := by
  rw [get_of_fileAt h]
  rfl

theorem isSome_of_isDir (h : t.isDir (dir ++ [x]) = true) : (t.get (dir ++ [x])).isSome := by
  rcases isDir_iff.mp h with hroot | hdir
  · exact absurd (List.append_eq_nil_iff.mp hroot).2 (List.cons_ne_nil _ _)
  · rw [hdir]
    rfl

/-- What is found under a name was a file that comes to it. -/
theorem relabelledIn_eq_some {f : D} (h : t.relabelledIn leaf dir y = some f) :
    ∃ x, leaf x = y ∧ t.fileAt (dir ++ [x]) = some f := by
  obtain ⟨x, _, hx⟩ := List.exists_of_findSome?_eq_some h
  split at hx
  · next hleaf => exact ⟨x, hleaf, hx⟩
  · cases hx

/-- A file is found under its new name, where no other entry comes to it. -/
theorem relabelledIn_file (hdistinct : t.DistinctIn leaf dir) {f : D} (hf : t.fileAt (dir ++ [x]) = some f) :
    t.relabelledIn leaf dir (leaf x) = some f := by
  cases hfound : t.relabelledIn leaf dir (leaf x) with
  | none =>
      have hall := List.findSome?_eq_none_iff.mp hfound x (mem_children.mpr (isSome_of_fileAt hf))
      rw [if_pos rfl, hf] at hall
      cases hall
  | some f' =>
      obtain ⟨x', hleaf, hf'⟩ := relabelledIn_eq_some hfound
      have hsame : x' = x := by
        apply hdistinct x' x (isSome_of_fileAt hf') (isSome_of_fileAt hf)
        rw [target_of_file (isDir_of_fileAt hf'), target_of_file (isDir_of_fileAt hf), hleaf]
      rw [hsame, hf] at hf'
      rw [← hf']

/-- Nothing is found under a name to which no entry comes. -/
theorem relabelledIn_eq_none (h : ∀ x, (t.get (dir ++ [x])).isSome → t.target leaf dir x ≠ y) :
    t.relabelledIn leaf dir y = none := by
  cases hfound : t.relabelledIn leaf dir y with
  | none => rfl
  | some f =>
      obtain ⟨x, hleaf, hf⟩ := relabelledIn_eq_some hfound
      refine absurd ?_ (h x (isSome_of_fileAt hf))
      rw [target_of_file (isDir_of_fileAt hf), hleaf]

/-- Nothing is found below what is no directory. -/
theorem relabelled_of_not_dir (h : t.WellFormed) (hdir : t.isDir dir = false) (q : List N) :
    t.relabelled leaf dir q = none := by
  induction q generalizing dir with
  | nil => rfl
  | cons y r ih =>
      have hnone := h.get_eq_none hdir
      cases r with
      | nil =>
          apply relabelledIn_eq_none
          intro x hx
          rw [hnone x] at hx
          cases hx
      | cons z r =>
          apply ih
          rw [Bool.eq_false_iff]
          intro hbelow
          have hsome := isSome_of_isDir hbelow
          rw [hnone y] at hsome
          cases hsome

/-- **A file is found at its target, and nothing below it.** -/
theorem relabelled_file (h : t.WellFormed) (hdistinct : t.DistinctIn leaf dir) {f : D}
    (hf : t.fileAt (dir ++ [x]) = some f) (r : List N) :
    t.relabelled leaf dir (leaf x :: r) = if r = [] then some f else none := by
  cases r with
  | nil => exact relabelledIn_file hdistinct hf
  | cons z r =>
      show t.relabelled leaf (dir ++ [leaf x]) (z :: r) = none
      apply relabelled_of_not_dir h
      rw [Bool.eq_false_iff]
      intro hdir
      -- a directory of that name would come to the same name
      have hfile := isDir_of_fileAt hf
      have hsame : leaf x = x := by
        apply hdistinct _ _ (isSome_of_isDir hdir) (isSome_of_fileAt hf)
        rw [target_of_isDir hdir, target_of_file hfile]
      rw [hsame, hfile] at hdir
      cases hdir

/-- **A directory is found at its name**, with what is found below it. -/
theorem relabelled_dir (hdistinct : t.DistinctIn leaf dir)
    (hdir : t.isDir (dir ++ [x]) = true) (r : List N) :
    t.relabelled leaf dir (x :: r) = t.relabelled leaf (dir ++ [x]) r := by
  cases r with
  | cons z r => rfl
  | nil =>
      show t.relabelledIn leaf dir x = none
      cases hfound : t.relabelledIn leaf dir x with
      | none => rfl
      | some f =>
          obtain ⟨x', hleaf, hf⟩ := relabelledIn_eq_some hfound
          have hfile := isDir_of_fileAt hf
          have hsame : x' = x := by
            apply hdistinct _ _ (isSome_of_fileAt hf) (isSome_of_isDir hdir)
            rw [target_of_isDir hdir, target_of_file hfile, hleaf]
          rw [hsame, hdir] at hfile
          cases hfile

/-- **Nothing is found elsewhere.** -/
theorem relabelled_eq_none (h : t.WellFormed) (hnone : ∀ x, (t.get (dir ++ [x])).isSome → t.target leaf dir x ≠ y)
    (r : List N) : t.relabelled leaf dir (y :: r) = none := by
  cases r with
  | nil => exact relabelledIn_eq_none hnone
  | cons z r =>
      show t.relabelled leaf (dir ++ [y]) (z :: r) = none
      apply relabelled_of_not_dir h
      rw [Bool.eq_false_iff]
      intro hdir
      exact hnone y (isSome_of_isDir hdir) (target_of_isDir hdir)

/-- What is found at a path was a file whose name comes to the last name of the path. -/
theorem relabelled_eq_some {f : D} (h : t.relabelled leaf dir q = some f) :
    ∃ way x, q = way ++ [leaf x] ∧ t.fileAt (dir ++ way ++ [x]) = some f := by
  induction q generalizing dir with
  | nil => cases h
  | cons y r ih =>
      cases r with
      | nil =>
          obtain ⟨x, rfl, hf⟩ := relabelledIn_eq_some h
          exact ⟨[], x, rfl, by rwa [List.append_nil]⟩
      | cons z r =>
          obtain ⟨way, x, hq, hf⟩ := ih h
          refine ⟨y :: way, x, by rw [hq, List.cons_append], ?_⟩
          rwa [List.append_assoc dir [y] way] at hf

/-! ### Files under their own names -/

theorem target_id (t : FileTree N D) (dir : List N) (x : N) : t.target id dir x = x := ite_self _

theorem distinct_id (t : FileTree N D) (dir : List N) : t.Distinct id dir := by
  intro q x y _ _ hxy
  rwa [target_id, target_id] at hxy

/-- Under their own names the files are found where they are. -/
theorem relabelled_id (dir : List N) (y : N) (r : List N) :
    t.relabelled id dir (y :: r) = t.fileAt (dir ++ y :: r) := by
  induction r generalizing dir y with
  | nil =>
      show t.relabelledIn id dir y = t.fileAt (dir ++ [y])
      cases hf : t.fileAt (dir ++ [y]) with
      | some f => exact relabelledIn_file (distinct_id t dir).here hf
      | none =>
          cases hfound : t.relabelledIn id dir y with
          | none => rfl
          | some f =>
              obtain ⟨x, hleaf, hf'⟩ := relabelledIn_eq_some hfound
              rw [show y = x from hleaf.symm, hf'] at hf
              cases hf
  | cons z r ih =>
      show t.relabelled id (dir ++ [y]) (z :: r) = _
      rw [ih, List.append_assoc]
      rfl

end FileTree

end LibUpdate
