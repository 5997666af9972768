import LibUpdate.Foundation.Subtree

/-!
# `Foundation.Graft` — trees cut down, cut off and grafted

`prune` composes: what several removals take away is one removal, told by the paths that are gone. A subtree is
`cut` off with paths of its own, and `graft` puts a tree in the place of what is below a path; a directory that is
moved is cut off at one place and grafted at another (`moveUnder`).
-/

namespace LibUpdate

/-- A node with other data. -/
def Node.map {D E : Type} (f : D → E) : Node D → Node E
  | .dir => .dir
  | .file d => .file (f d)

namespace FileTree

variable {N D E : Type} [DecidableEq N] {t : FileTree N D} {p q src dst : List N}

/-! ## Removals -/

theorem prune_none {N D : Type} (t : FileTree N D) : t.prune (fun _ => false) = t := by
  simp [prune]

theorem prune_prune {N D : Type} (t : FileTree N D) (a b : List N → Bool) :
    (t.prune a).prune b = t.prune fun q => a q || b q := by
  simp only [prune, List.filter_filter]
  refine List.filter_congr fun e _ => ?_
  cases a e.1 <;> cases b e.1 <;> rfl

/-- Only the paths that are there matter. -/
theorem prune_congr {a b : List N → Bool} (h : ∀ q, (t.get q).isSome → a q = b q) : t.prune a = t.prune b := by
  refine List.filter_congr fun e he => ?_
  have hthere : (t.get e.1).isSome := get_isSome_iff.mpr ⟨e.2, he⟩
  rw [h e.1 hthere]

/-- Where nothing is left below a path, and nothing else is gone, all of it has been removed. -/
theorem prune_eq_removeUnder {gone : List N → Bool} (hbelow : ∀ q, gone q = true → p <+: q)
    (hnone : ∀ q, p <+: q → (t.prune gone).get q = none) : t.prune gone = t.removeUnder p := by
  refine prune_congr fun q hq => ?_
  cases hgone : gone q with
  | true => exact (List.isPrefixOf_iff_prefix.mpr (hbelow q hgone)).symm
  | false =>
      rw [eq_comm, Bool.eq_false_iff, ne_eq, List.isPrefixOf_iff_prefix]
      intro hway
      have hkept := hnone q hway
      rw [get_prune, hgone] at hkept
      rw [if_neg Bool.false_ne_true] at hkept
      rw [hkept] at hq
      cases hq

/-- Nothing lies below what is not there. -/
theorem WellFormed.get_eq_none_below (h : t.WellFormed) (hp : t.get p = none) (hne : p ≠ []) (hpq : p <+: q) :
    t.get q = none := by
  obtain ⟨r, rfl⟩ := hpq
  by_cases hr : r = []
  · rwa [hr, List.append_nil]
  · cases hget : t.get (p ++ r) with
    | none => rfl
    | some n =>
        rcases isDir_iff.mp (h.isDir_of_below hr hget) with hroot | hdir
        · exact absurd hroot hne
        · rw [hp] at hdir
          cases hdir

/-! ## Subtrees -/

/-- What is at and below a path, with paths from there on. -/
def cut (t : FileTree N D) (dir : List N) : FileTree N D :=
  t.filterMap fun e => if dir <+: e.1 then some (e.1.drop dir.length, e.2) else none

theorem get_cut (t : FileTree N D) (dir q : List N) : (t.cut dir).get q = t.get (dir ++ q) := by
  induction t with
  | nil => rfl
  | cons e t ih =>
      obtain ⟨p, n⟩ := e
      rw [get_cons]
      by_cases hp : dir <+: p
      · obtain ⟨r, rfl⟩ := hp
        have hcons : cut ((dir ++ r, n) :: t) dir = (r, n) :: cut t dir := by
          simp [cut]
        rw [hcons, get_cons, ih]
        simp only [List.append_cancel_left_eq]
      · have hcons : cut ((p, n) :: t) dir = cut t dir := by
          simp [cut, hp]
        rw [hcons, ih, if_neg]
        rintro rfl
        exact hp (List.prefix_append dir q)

/-- A tree in the place of what is at and below a path. -/
def graft (t : FileTree N D) (dir : List N) (u : FileTree N D) : FileTree N D :=
  u.map (fun e => (dir ++ e.1, e.2)) ++ t.removeUnder dir

theorem get_graft (t : FileTree N D) (dir : List N) (u : FileTree N D) (q : List N) :
    (t.graft dir u).get q = if dir <+: q then u.get (q.drop dir.length) else t.get q := by
  have hmap : get (u.map fun e => (dir ++ e.1, e.2)) q
      = if dir <+: q then u.get (q.drop dir.length) else none := by
    induction u with
    | nil => simp
    | cons e u ih =>
        obtain ⟨p, n⟩ := e
        rw [List.map_cons, get_cons, ih]
        by_cases hq : dir <+: q
        · obtain ⟨r, rfl⟩ := hq
          simp [get_cons]
        · rw [if_neg hq, if_neg hq, if_neg]
          rintro rfl
          exact hq (List.prefix_append dir p)
  unfold graft
  rw [get, List.lookup_append]
  change (get _ q).or (get _ q) = _
  rw [hmap, get_removeUnder]
  split
  · rw [Option.or_none]
  · rw [Option.none_or]

/-- Moves what is at and below a path. -/
def moveUnder (t : FileTree N D) (src dst : List N) : FileTree N D :=
  (t.removeUnder src).graft dst (t.cut src)

theorem get_moveUnder (t : FileTree N D) (src dst q : List N) :
    (t.moveUnder src dst).get q
      = if dst <+: q then t.get (src ++ q.drop dst.length) else if src <+: q then none else t.get q := by
  rw [moveUnder, get_graft, get_cut, get_removeUnder]

/-- A directory that is moved into a directory, but not into itself. -/
theorem WellFormed.moveUnder (h : t.WellFormed) (hdst : dst ≠ []) (hparent : t.isDir dst.dropLast = true)
    (hout : ¬ src <+: dst) : (t.moveUnder src dst).WellFormed := by
  have hroot : ¬ dst <+: [] := fun hnil => hdst (List.prefix_nil.mp hnil)
  constructor
  · rw [get_moveUnder, if_neg hroot, h.root]
    exact ite_self _
  · intro p x n hn
    rw [get_moveUnder] at hn
    rw [isDir_iff, get_moveUnder]
    split at hn
    · next hbelow =>
      rcases List.prefix_concat_iff.mp hbelow with heq | hp
      · -- the place itself lies where it did
        have hp : dst.dropLast = p := by
          rw [heq, List.dropLast_concat]
        have hdstp : ¬ dst <+: p := by
          intro hlong
          have hlen := hlong.length_le
          rw [heq, List.length_append] at hlen
          exact Nat.not_succ_le_self _ hlen
        have hsrcp : ¬ src <+: p := fun hsrc => hout (hsrc.trans (hp ▸ List.dropLast_prefix dst))
        rw [if_neg hdstp, if_neg hsrcp, ← isDir_iff, ← hp]
        exact hparent
      · right
        rw [if_pos hp]
        obtain ⟨r, rfl⟩ := hp
        rw [List.append_assoc, List.drop_left, ← List.append_assoc] at hn
        rw [List.drop_left]
        rcases isDir_iff.mp (h.parent _ _ _ hn) with hnil | hdir
        · exact absurd ((List.append_eq_nil_iff.mp hnil).1 ▸ List.nil_prefix) hout
        · exact hdir
    · next hbeside =>
      split at hn
      · cases hn
      · next hkept =>
        have hdstp : ¬ dst <+: p := fun hlong => hbeside (hlong.trans (List.prefix_append p [x]))
        have hsrcp : ¬ src <+: p := fun hlong => hkept (hlong.trans (List.prefix_append p [x]))
        rw [if_neg hdstp, if_neg hsrcp, ← isDir_iff]
        exact h.parent p x n hn

/-! ## Trees with other data -/

/-- The same tree with other data in its files. -/
def mapData (f : D → E) (t : FileTree N D) : FileTree N E := List.map (fun e => (e.1, e.2.map f)) t

theorem get_mapData (f : D → E) (t : FileTree N D) (q : List N) : (t.mapData f).get q = (t.get q).map (Node.map f) := by
  induction t with
  | nil => rfl
  | cons e t ih =>
      obtain ⟨p, n⟩ := e
      show get ((p, n.map f) :: mapData f t) q = _
      rw [get_cons, get_cons, ih]
      split <;> rfl

end FileTree

end LibUpdate
