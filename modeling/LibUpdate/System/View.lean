import LibUpdate.Extract.Exact
import LibUpdate.System.Updater
import LibUpdate.Updater.Beside

/-!
# `System.View` — the three directories of an installation in a file system

The install, staging and backup directory, the state file and the file it is prepared in lie in one directory, under
names that only their endings tell apart (`Plain.path_eq`). `Views` says that a disk of `Updater.Main` shows what is
there: each directory with all that lies in it, the state file with its bytes, and everything else as it was.
-/

namespace LibUpdate

/-! ## What a directory holds -/

/-- The tree is what is at the path: nothing, or a directory with this in it. By `Shows` the paths of a file system and
    the trees of `Updater.Main` are brought together. -/
def Shows (t : Fs) (p : List Bytes) : Option Tree → Prop
  | none => t.get p = none
  | some u => t.get p = some .dir ∧ ∀ q, u.get q = (viewAt t p).get q

/-- What is at a path, seen at another, where the same lies at and below it. -/
theorem Shows.moved {s t : Fs} {p p' : List Bytes} {u : Option Tree} (h : Shows s p u)
    (hget : ∀ q, t.get (p' ++ q) = s.get (p ++ q)) : Shows t p' u := by
  have hself : t.get p' = s.get p := by
    have hnil := hget []
    rwa [List.append_nil, List.append_nil] at hnil
  cases u with
  | none => exact hself.trans h
  | some u => exact ⟨hself.trans h.1, fun q => (h.2 q).trans (viewAt_congr (hget q)).symm⟩

theorem Shows.congr {s t : Fs} {p : List Bytes} {u : Option Tree} (h : Shows s p u)
    (hget : ∀ q, p <+: q → t.get q = s.get q) : Shows t p u :=
  h.moved fun q => hget (p ++ q) (List.prefix_append p q)

/-- A directory shows itself. -/
theorem shows_viewAt {t : Fs} {p : List Bytes} (h : t.get p = some .dir) : Shows t p (some (viewAt t p)) :=
  ⟨h, fun _ => rfl⟩

/-- Where a directory shows, there is one; where nothing does, there is none. -/
theorem Shows.isDir {t : Fs} {p : List Bytes} {u : Option Tree} (h : Shows t p u) (hp : p ≠ []) :
    t.isDir p = u.isSome := by
  rw [Bool.eq_iff_iff, FileTree.isDir_iff, or_iff_right hp]
  cases u with
  | none =>
      rw [show t.get p = none from h]
      exact ⟨fun hdir => (nomatch hdir), fun hsome => (nomatch hsome)⟩
  | some u => exact ⟨fun _ => rfl, fun _ => h.1⟩

/-- A tree with nothing at any path is the empty one. -/
theorem tree_eq_nil {u : Tree} (h : ∀ q, u.get q = none) : u = [] := by
  cases u with
  | nil => rfl
  | cons n u =>
      obtain ⟨q, n⟩ := n
      have hhead := h q
      rw [FileTree.get_cons, if_pos rfl] at hhead
      cases hhead

namespace Sys

/-! ## Where the directories lie -/

/-- The ending of the file that a state is prepared in. -/
def partSuffix : Bytes := stateSuffix ++ ascii ".part"

/-- The endings that are appended to the install directory. -/
def endings : List Bytes := [[], stagingSuffix, backupSuffix, stateSuffix, partSuffix]

theorem endings_plain {x : Bytes} (hx : x ∈ endings) : (∀ c ∈ x, isPathSep c = false) ∧ (x = [] ∨ 2 < x.length) := by
  have hall : ∀ x ∈ endings, (∀ c ∈ x, isPathSep c = false) ∧ (x = [] ∨ 2 < x.length) := by
    decide +kernel
  exact hall x hx

namespace Setting

variable (w : Setting)

/-- The directory that the install directory lies in. -/
def parent : List Bytes := (fsPath w.installDir).dropLast

/-- The name of the install directory. -/
def base : Bytes := (fsPath w.installDir).getLast?.getD []

/-- Where the path with this ending leads. -/
def spot (ending : Bytes) : List Bytes := w.parent ++ [w.base ++ ending]

/-- The ending of a directory's path. -/
def endingOf : Place → Bytes
  | .install => []
  | .staging => stagingSuffix
  | .backup => backupSuffix

/-- The install directory is one that the checks accept, and does not end with a separator: then the names that `main`
    builds from it lie beside it. -/
structure Plain : Prop where
  ok : PathOk w.installDir
  absolute : pathIsAbsolute w.installDir = true
  last : w.installDir.getLast? ≠ some (ch '/')

variable {w}

theorem Plain.located (h : w.Plain) : fsPath w.installDir = w.parent ++ [w.base]
    ∧ ∀ ext : Bytes, (∀ c ∈ ext, isPathSep c = false) → 2 < ext.length →
      fsPath (w.installDir ++ ext) = w.parent ++ [w.base ++ ext] := by
  obtain ⟨first, seg, hsplit, happend, hseg⟩ := exists_last_segment isPathSep w.installDir
  have hplain := h.ok.components seg (by rw [hsplit]; simp)
  have hne : seg ≠ [] := by
    intro hempty
    have hall := hseg.mp hempty
    rw [List.getLast?_eq_some_getLast h.ok.nonempty] at hall
    refine h.last ?_
    rw [List.getLast?_eq_some_getLast h.ok.nonempty]
    exact congrArg some (by simpa [isPathSep] using hall)
  have hself : fsPath w.installDir = first.foldl resolveStep [] ++ [seg] := by
    rw [fsPath, resolvePath, hsplit, List.foldl_append, List.foldl_cons, List.foldl_nil, resolveStep,
      if_neg (by simp [hne, hplain.1]), if_neg hplain.2]
  have hparent : w.parent = first.foldl resolveStep [] := by
    rw [parent, hself, List.dropLast_concat]
  have hbase : w.base = seg := by
    rw [base, hself, List.getLast?_concat]
    rfl
  refine ⟨by rw [hparent, hbase, hself], fun ext hext hlong => ?_⟩
  rw [hparent, hbase, fsPath, resolvePath, happend ext hext, List.foldl_append]
  exact resolveStep_long hlong _ seg

/-- **Beside each other**: the paths differ in the ending of their last name. -/
theorem Plain.path_eq (h : w.Plain) {ending : Bytes} (hending : ending ∈ endings) :
    fsPath (w.installDir ++ ending) = w.spot ending := by
  obtain ⟨hsep, rfl | hlong⟩ := endings_plain hending
  · rw [List.append_nil, spot, List.append_nil]
    exact h.located.1
  · exact h.located.2 ending hsep hlong

theorem endingOf_mem (p : Place) : endingOf p ∈ endings := by
  cases p <;> decide +kernel

theorem endingOf_ne (p : Place) : endingOf p ≠ stateSuffix ∧ endingOf p ≠ partSuffix := by
  cases p <;> decide +kernel

theorem endingOf_inj {p q : Place} (h : endingOf p = endingOf q) : p = q := by
  revert h
  cases p <;> cases q <;> decide +kernel

theorem placePath_eq (w : Setting) (p : Place) : w.placePath p = w.installDir ++ endingOf p := by
  cases p
  · exact (List.append_nil _).symm
  · rfl
  · rfl

/-- Where a directory lies. -/
theorem Plain.place (h : w.Plain) (p : Place) : fsPath (w.placePath p) = w.spot (endingOf p) := by
  rw [placePath_eq]
  exact h.path_eq (endingOf_mem p)

theorem Plain.state (h : w.Plain) : fsPath w.statePath = w.spot stateSuffix := h.path_eq (by decide +kernel)

/-- Where the file lies that a state is prepared in. -/
theorem Plain.part (h : w.Plain) : fsPath (w.statePath ++ ascii ".part") = w.spot partSuffix := by
  have hpart : partSuffix ∈ endings := by
    decide +kernel
  rw [statePath, List.append_assoc]
  exact h.path_eq hpart

theorem spot_ne_nil (w : Setting) (x : Bytes) : w.spot x ≠ [] :=
  List.append_ne_nil_of_right_ne_nil _ (List.cons_ne_nil _ _)

theorem spot_dropLast (w : Setting) (x : Bytes) : (w.spot x).dropLast = w.parent := List.dropLast_concat

/-- Nothing lies at or below two of the names. -/
theorem spot_apart {x y : Bytes} (hxy : x ≠ y) {q : List Bytes}
    (hq : w.spot y <+: q) : ¬ w.spot x <+: q := by
  intro hq'
  have hlen : (w.spot x).length = (w.spot y).length := by
    rw [spot, spot, List.length_append, List.length_append]
    rfl
  have hsame : w.spot x = w.spot y := (List.prefix_of_prefix_length_le hq' hq (Nat.le_of_eq hlen)).eq_of_length hlen
  have hname := (List.cons.inj (List.append_cancel_left hsame)).1
  exact hxy (List.append_cancel_left hname)

/-- The parent directory lies below none of the names. -/
theorem spot_not_prefix_parent (w : Setting) (x : Bytes) {q : List Bytes} (hq : q <+: w.parent) : ¬ w.spot x <+: q := by
  intro h
  have hlen := (h.trans hq).length_le
  rw [spot, List.length_append] at hlen
  exact Nat.not_succ_le_self _ hlen

/-! ## A disk that shows what is there -/

/-- The world of `Updater.Main` that the updater works in. -/
def world : World where
  installDir := w.installDir
  package zip := packageOf ((w.archive zip).getD [])
  temps zip := tempsOf ((w.archive zip).getD [])

/-- All that lies in the directory fits into the buffers, under the longest of the names that the directory is moved
    to. What fits so can be removed wherever it has got to. -/
def FitsAt (t : Fs) (p : Place) : Prop :=
  ∀ q, (t.get (w.spot (endingOf p) ++ q)).isSome → (Copy.joined (w.installDir ++ stagingSuffix) q).length < pathMax

/-- **The disk shows what is there**: each directory with all that lies in it, and the state file. Everything that
    lies at none of the names is as in `origin`. Where `tame` asks for it, all paths fit into the buffers. -/
structure Views (w : Setting) (tame : Prop) (origin : Fs) (t : Volume) (s : Disk) : Prop where
  place : ∀ p, Shows t.1 (w.spot (endingOf p)) (s.get p)
  state : s.state = dataAt t.1 (w.spot stateSuffix)
  files : ∀ x ∈ [stateSuffix, partSuffix], t.1.isDir (w.spot x) = false
  parent : t.1.isDir w.parent = true
  outside : ∀ q, (∀ x ∈ endings, ¬ w.spot x <+: q) → t.1.get q = origin.get q
  fits : tame → ∀ p, w.FitsAt t.1 p

/-- **The frame rule.** What changes at some of the names only is shown by a disk that shows these. -/
theorem Views.change {tame : Prop} {origin : Fs} {t t' : Volume} {s s' : Disk} (h : Views w tame origin t s)
    (names : List Bytes) (hnames : ∀ x ∈ names, x ∈ endings)
    (hframe : ∀ q, (∀ x ∈ names, ¬ w.spot x <+: q) → t'.1.get q = t.1.get q)
    (hplace : ∀ p, endingOf p ∉ names ∧ s'.get p = s.get p
      ∨ Shows t'.1 (w.spot (endingOf p)) (s'.get p) ∧ (tame → w.FitsAt t'.1 p))
    (hstate : stateSuffix ∉ names ∧ s'.state = s.state ∨ s'.state = dataAt t'.1 (w.spot stateSuffix))
    (hfiles : ∀ x ∈ [stateSuffix, partSuffix], x ∉ names ∨ t'.1.isDir (w.spot x) = false) :
    Views w tame origin t' s' := by
  -- at and below the other names, nothing has changed
  have happart : ∀ {x}, x ∉ names → ∀ q, w.spot x <+: q → t'.1.get q = t.1.get q := by
    intro x hx q hq
    refine hframe q fun y hy => spot_apart ?_ hq
    rintro rfl
    exact hx hy
  refine ⟨fun p => ?_, ?_, fun x hx => ?_, ?_, fun q hq => ?_, fun htame p => ?_⟩
  · rcases hplace p with ⟨hout, heq⟩ | ⟨hshows, _⟩
    · rw [heq]
      exact (h.place p).congr (happart hout)
    · exact hshows
  · rcases hstate with ⟨hout, heq⟩ | heq
    · rw [heq, h.state]
      exact (dataAt_congr (happart hout _ (List.prefix_refl _))).symm
    · exact heq
  · rcases hfiles x hx with hout | hfile
    · rw [isDir_congr (happart hout _ (List.prefix_refl _))]
      exact h.files x hx
    · exact hfile
  · rw [isDir_congr (hframe _ fun x _ => spot_not_prefix_parent w x (List.prefix_refl _))]
    exact h.parent
  · rw [hframe q fun x hx => hq x (hnames x hx)]
    exact h.outside q hq
  · rcases hplace p with ⟨hout, _⟩ | ⟨_, hfits⟩
    · intro q hq
      rw [happart hout _ (List.prefix_append _ _)] at hq
      exact h.fits htame p q hq
    · exact hfits htame

/-- A change in one of the directories. -/
theorem Views.changePlace {tame : Prop} {origin : Fs} {t t' : Volume} {s : Disk} (h : Views w tame origin t s)
    (p : Place) {u : Option Tree} (hframe : ∀ q, ¬ w.spot (endingOf p) <+: q → t'.1.get q = t.1.get q)
    (hshows : Shows t'.1 (w.spot (endingOf p)) u) (hfits : tame → w.FitsAt t'.1 p) :
    Views w tame origin t' (s.set p u) := by
  have hother : ∀ x, x ∉ [endingOf p] ↔ x ≠ endingOf p := fun x => by rw [List.mem_singleton]
  have hget : ∀ q, q ≠ p → (s.set p u).get q = s.get q := by
    intro q hq
    cases p <;> cases q <;> first | rfl | exact absurd rfl hq
  have hself : (s.set p u).get p = u := by
    cases p <;> rfl
  refine h.change [endingOf p] (fun x hx => List.mem_singleton.mp hx ▸ endingOf_mem p) (fun q hq => ?_) (fun q => ?_) ?_ fun x hx => ?_
  · exact hframe q (hq _ (List.mem_singleton.mpr rfl))
  · by_cases hq : q = p
    · rw [hq, hself]
      exact Or.inr ⟨hshows, hfits⟩
    · exact Or.inl ⟨(hother _).mpr fun heq => hq (endingOf_inj heq), hget q hq⟩
  · refine Or.inl ⟨(hother _).mpr fun heq => (endingOf_ne p).1 heq.symm, ?_⟩
    cases p <;> rfl
  · refine Or.inl ((hother x).mpr ?_)
    rcases List.mem_cons.mp hx with rfl | hx
    · exact fun heq => (endingOf_ne p).1 heq.symm
    · rw [List.mem_singleton.mp hx]
      exact fun heq => (endingOf_ne p).2 heq.symm

/-- A change of the state file. -/
theorem Views.changeState {tame : Prop} {origin : Fs} {t t' : Volume} {s : Disk} (h : Views w tame origin t s)
    {file : Option Bytes} (hframe : ∀ q, ¬ w.spot stateSuffix <+: q → t'.1.get q = t.1.get q)
    (hfile : file = dataAt t'.1 (w.spot stateSuffix)) (hdir : t'.1.isDir (w.spot stateSuffix) = false) :
    Views w tame origin t' { s with state := file } := by
  have hpart : partSuffix ≠ stateSuffix := by
    decide +kernel
  refine h.change [stateSuffix] (fun x hx => ?_) (fun q hq => ?_) (fun p => Or.inl ⟨?_, ?_⟩) (Or.inr hfile)
    fun x hx => ?_
  · rw [List.mem_singleton.mp hx]
    decide +kernel
  · exact hframe q (hq _ (List.mem_singleton.mpr rfl))
  · rw [List.mem_singleton]
    exact (endingOf_ne p).1
  · cases p <;> rfl
  · rcases List.mem_cons.mp hx with rfl | hx
    · exact Or.inr hdir
    · rw [List.mem_singleton.mp hx, List.mem_singleton]
      exact Or.inl hpart

/-- A change of the file that a state is prepared in. -/
theorem Views.changePart {tame : Prop} {origin : Fs} {t t' : Volume} {s : Disk} (h : Views w tame origin t s)
    {part : Option Bytes} (hframe : ∀ q, ¬ w.spot partSuffix <+: q → t'.1.get q = t.1.get q)
    (hdir : t'.1.isDir (w.spot partSuffix) = false) : Views w tame origin t' { s with part := part } := by
  have hstate : stateSuffix ≠ partSuffix := by
    decide +kernel
  refine h.change [partSuffix] (fun x hx => ?_) (fun q hq => ?_) (fun p => Or.inl ⟨?_, ?_⟩)
    (Or.inl ⟨?_, rfl⟩) fun x hx => ?_
  · rw [List.mem_singleton.mp hx]
    decide +kernel
  · exact hframe q (hq _ (List.mem_singleton.mpr rfl))
  · rw [List.mem_singleton]
    exact (endingOf_ne p).2
  · cases p <;> rfl
  · rw [List.mem_singleton]
    exact hstate
  · rcases List.mem_cons.mp hx with rfl | hx
    · rw [List.mem_singleton]
      exact Or.inl hstate
    · rw [List.mem_singleton.mp hx]
      exact Or.inr hdir

end Setting

end Sys

end LibUpdate
