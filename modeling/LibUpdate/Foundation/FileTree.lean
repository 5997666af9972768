/-!
# `Foundation.FileTree` — directory trees

A tree is the list of its nodes, each under the path that leads to it from the root (the root itself is
not listed). What is at a path is the first entry for it. Each operation comes with the lemma that says
what is at every path afterwards, so that no proof needs to look at the lists.
-/

namespace LibUpdate

inductive Node (D : Type) where
  | dir
  | file (data : D)
  deriving DecidableEq, Repr

abbrev FileTree (N D : Type) := List (List N × Node D)

namespace FileTree

variable {N D : Type} [DecidableEq N]

/-- What is at a path. -/
def get (t : FileTree N D) (p : List N) : Option (Node D) := t.lookup p

/-- The data of the file at a path, if a file is there. -/
def fileAt (t : FileTree N D) (p : List N) : Option D :=
  match t.get p with
  | some (.file d) => some d
  | _ => none

/-- Puts a node at a path, in place of what was there. -/
def set (t : FileTree N D) (p : List N) (n : Node D) : FileTree N D :=
  (p, n) :: t.filter fun e => e.1 ≠ p

/-- Removes what is at the paths in `gone`. -/
def prune (t : FileTree N D) (gone : List N → Bool) : FileTree N D :=
  t.filter fun e => !gone e.1

/-- Removes a path and everything below it. -/
def removeUnder (t : FileTree N D) (p : List N) : FileTree N D := t.prune p.isPrefixOf

/-- A directory is at a path; the root is one. -/
def isDir (t : FileTree N D) (p : List N) : Bool :=
  p.isEmpty || match t.get p with
    | some .dir => true
    | _ => false

/-- The nodes of `top`, and those of `t` at the other paths. -/
def overlay (top t : FileTree N D) : FileTree N D :=
  top ++ t.filter fun e => (top.get e.1).isNone

@[simp] theorem get_nil (p : List N) : get ([] : FileTree N D) p = none := rfl

theorem get_cons (q : List N) (n : Node D) (t : FileTree N D) (p : List N) :
    get ((q, n) :: t) p = if p = q then some n else t.get p := by
  unfold get
  rw [List.lookup_cons]
  by_cases hp : p = q
  · simp [hp]
  · have : (p == q) = false := by simpa using hp
    simp [this, hp]

/-- Entries are kept or dropped by their paths. -/
theorem get_filter (t : FileTree N D) (keep : List N → Bool) (p : List N) :
    get (t.filter fun e => keep e.1) p = if keep p then t.get p else none := by
  induction t with
  | nil => simp
  | cons e t ih =>
      obtain ⟨q, n⟩ := e
      by_cases hk : keep q
      · rw [List.filter_cons_of_pos (by simpa using hk), get_cons, get_cons, ih]
        by_cases hp : p = q
        · subst hp
          simp [hk]
        · simp [hp]
      · rw [List.filter_cons_of_neg (by simpa using hk), get_cons, ih]
        by_cases hp : p = q
        · subst hp
          simp [hk]
        · simp [hp]

theorem get_set (t : FileTree N D) (p : List N) (n : Node D) (q : List N) :
    (t.set p n).get q = if q = p then some n else t.get q := by
  have hrest : get (t.filter fun e => e.1 ≠ p) q = if decide (q ≠ p) then t.get q else none :=
    get_filter t (fun r => decide (r ≠ p)) q
  rw [set, get_cons, hrest]
  by_cases hq : q = p
  · simp [hq]
  · simp [hq]

theorem get_prune (t : FileTree N D) (gone : List N → Bool) (p : List N) :
    (t.prune gone).get p = if gone p then none else t.get p := by
  have h := get_filter t (fun q => !gone q) p
  rw [prune, h]
  cases gone p <;> rfl

theorem get_removeUnder (t : FileTree N D) (p q : List N) :
    (t.removeUnder p).get q = if p <+: q then none else t.get q := by
  rw [removeUnder, get_prune]
  by_cases hp : p <+: q
  · rw [if_pos hp, if_pos (List.isPrefixOf_iff_prefix.mpr hp)]
  · rw [if_neg hp, if_neg (fun h => hp (List.isPrefixOf_iff_prefix.mp h))]

theorem get_overlay (top t : FileTree N D) (p : List N) :
    (overlay top t).get p = (top.get p).or (t.get p) := by
  have h := get_filter t (fun r => (top.get r).isNone) p
  unfold overlay
  rw [get, List.lookup_append]
  change (top.get p).or (get _ p) = _
  rw [h]
  cases top.get p <;> simp

/-- What the top tree holds is what the overlay holds. -/
theorem fileAt_overlay_top {top t : FileTree N D} {p : List N} {d : D} (h : top.fileAt p = some d) :
    (overlay top t).fileAt p = some d := by
  unfold fileAt at h ⊢
  rw [get_overlay]
  cases hp : top.get p with
  | none => rw [hp] at h; cases h
  | some n => rw [hp] at h; exact h

/-- Where the top tree holds nothing, the tree below it shows. -/
theorem fileAt_overlay_of_get_eq_none {top t : FileTree N D} {p : List N} (h : top.get p = none) :
    (overlay top t).fileAt p = t.fileAt p := by
  unfold fileAt
  rw [get_overlay, h, Option.none_or]

@[simp] theorem overlay_nil (top : FileTree N D) : overlay top [] = top := by
  simp [overlay]

/-! ## Trees in which every node lies in a directory -/

theorem isDir_iff {t : FileTree N D} {p : List N} : t.isDir p = true ↔ p = [] ∨ t.get p = some .dir := by
  unfold isDir
  rw [Bool.or_eq_true, List.isEmpty_iff]
  refine or_congr_right ?_
  split
  · next h => simp [h]
  · next h => exact iff_of_false Bool.false_ne_true h

theorem isDir_eq_false_of_fileAt {t : FileTree N D} {p : List N} {d : D} (hne : p ≠ [])
    (h : t.fileAt p = some d) : t.isDir p = false := by
  rw [Bool.eq_false_iff, ne_eq, isDir_iff]
  rintro (hroot | hdir)
  · exact hne hroot
  · rw [fileAt, hdir] at h
    cases h

theorem get_of_fileAt {t : FileTree N D} {p : List N} {d : D} (h : t.fileAt p = some d) :
    t.get p = some (.file d) := by
  unfold fileAt at h
  split at h
  · next d' hget =>
    cases h
    exact hget
  · cases h

theorem ne_nil_of_isDir_eq_false {t : FileTree N D} {p : List N} (h : t.isDir p = false) : p ≠ [] := by
  rintro rfl
  cases h

/-- Every node lies in a directory, and the root is not listed. -/
structure WellFormed (t : FileTree N D) : Prop where
  root : t.get [] = none
  parent : ∀ p x n, t.get (p ++ [x]) = some n → t.isDir p = true

namespace WellFormed

variable {t : FileTree N D} {p q : List N}

/-- A node lies in a directory. -/
theorem isDir_dropLast (h : t.WellFormed) {n : Node D} (hn : t.get p = some n) :
    t.isDir p.dropLast = true := by
  have hne : p ≠ [] := by
    rintro rfl
    rw [h.root] at hn
    cases hn
  rw [← List.dropLast_concat_getLast hne] at hn
  exact h.parent _ _ _ hn

/-- On the way to a node there are directories. -/
theorem isDir_of_below (h : t.WellFormed) {n : Node D} (hq : q ≠ []) (hn : t.get (p ++ q) = some n) :
    t.isDir p = true := by
  induction hlen : q.length generalizing q n with
  | zero => exact absurd (List.length_eq_zero_iff.mp hlen) hq
  | succ k ih =>
      have hsplit : q.dropLast ++ [q.getLast hq] = q := List.dropLast_concat_getLast hq
      rw [← hsplit, ← List.append_assoc] at hn
      have hdir := h.parent _ _ _ hn
      by_cases hempty : q.dropLast = []
      · rwa [hempty, List.append_nil] at hdir
      · rcases isDir_iff.mp hdir with hroot | hdir
        · exact absurd (List.append_eq_nil_iff.mp hroot).2 hempty
        · exact ih hempty hdir (by rw [List.length_dropLast, hlen]; rfl)

/-- On the way to a directory there are directories. -/
theorem isDir_of_prefix (h : t.WellFormed) (hpq : p <+: q) (hq : t.isDir q = true) : t.isDir p = true := by
  obtain ⟨r, rfl⟩ := hpq
  by_cases hr : r = []
  · rwa [hr, List.append_nil] at hq
  · rcases isDir_iff.mp hq with hroot | hdir
    · exact isDir_iff.mpr (Or.inl (List.append_eq_nil_iff.mp hroot).1)
    · exact h.isDir_of_below hr hdir

/-- Where a file is, there is no directory. -/
theorem isDir_of_fileAt (h : t.WellFormed) {d : D} (hp : t.fileAt p = some d) : t.isDir p = false := by
  have hne : p ≠ [] := by
    rintro rfl
    have hget := get_of_fileAt hp
    rw [h.root] at hget
    cases hget
  exact isDir_eq_false_of_fileAt hne hp

/-- A file has nothing below it, so no directory goes on from it. -/
theorem not_prefix_of_isDir (h : t.WellFormed) {d : D} (hp : t.fileAt p = some d) (hq : t.isDir q = true) :
    ¬ p <+: q := by
  have hfile : t.isDir p = false := h.isDir_of_fileAt hp
  intro hpq
  rw [h.isDir_of_prefix hpq hq] at hfile
  cases hfile

theorem nil : WellFormed ([] : FileTree N D) := by
  refine ⟨rfl, ?_⟩
  intro p x n h
  cases h

/-- Putting a node into a directory, but not over a directory. -/
theorem set (h : t.WellFormed) {n : Node D} (hp : t.isDir p.dropLast = true) (hn : t.isDir p = false) :
    (t.set p n).WellFormed := by
  have hdir : ∀ r, t.isDir r = true → (t.set p n).isDir r = true := by
    intro r hr
    rw [isDir_iff] at hr ⊢
    refine hr.imp_right fun hget => ?_
    rw [get_set, if_neg]
    · exact hget
    · rintro rfl
      rw [isDir_iff.mpr (Or.inr hget)] at hn
      cases hn
  constructor
  · rw [get_set, if_neg (Ne.symm (ne_nil_of_isDir_eq_false hn))]
    exact h.root
  · intro r y m hm
    rw [get_set] at hm
    split at hm
    · next heq =>
      apply hdir
      rwa [← heq, List.dropLast_concat] at hp
    · exact hdir r (h.parent r y m hm)

/-- Removing paths together with what is below them. -/
theorem prune (h : t.WellFormed) {gone : List N → Bool}
    (hgone : ∀ p x, gone p = true → gone (p ++ [x]) = true) : (t.prune gone).WellFormed := by
  constructor
  · rw [get_prune, h.root]
    exact ite_self _
  · intro p x n hn
    rw [get_prune] at hn
    split at hn
    · cases hn
    · next hkept =>
      have hp : gone p = false := by
        cases hp : gone p with
        | false => rfl
        | true => exact absurd (hgone p x hp) hkept
      rw [isDir_iff]
      refine (isDir_iff.mp (h.parent p x n hn)).imp_right fun hget => ?_
      rw [get_prune, hp]
      exact hget

theorem removeUnder (h : t.WellFormed) (p : List N) : (t.removeUnder p).WellFormed := by
  apply h.prune
  intro q x hq
  rw [List.isPrefixOf_iff_prefix] at hq ⊢
  exact hq.trans (List.prefix_append q [x])

end WellFormed

/-- Directories outside a removed path stay. -/
theorem isDir_removeUnder {t : FileTree N D} {p q : List N} (h : ¬ p <+: q) :
    (t.removeUnder p).isDir q = t.isDir q := by
  unfold isDir
  rw [get_removeUnder, if_neg h]

end FileTree

end LibUpdate
