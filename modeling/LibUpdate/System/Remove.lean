import LibUpdate.Copy.Walk
import LibUpdate.Foundation.Refinement
import LibUpdate.System.Model

/-!
# `System.Remove` — removing a tree call by call (`platform_fs.c`, POSIX build)

`platform_fs_remove_path` asks `lstat` what it has to remove, and goes into a directory before it removes it. It may
fail at any call, and may be cut short between any two. Whatever happens, what is gone lies below the path, with
all that lay below it in turn; and the path itself goes last, in a single call. This is what `FsOp.remove` is taken
to do in one step (`platformFsRemovePath_removes`).
-/

namespace LibUpdate

/-! ## The programs -/

/-- What the loop of `remove_dir_contents_posix` does for an entry. `removeDir` removes a directory. -/
def removeEntry (removeDir : Bytes → SysProg Bool) (dir name : Bytes) : SysProg Bool :=
  -- the joined path has to fit its buffer
  if dir.length + 1 + name.length + 1 > pathMax then pure false
  else do
    let isDir ← Sys.ask (.lstat (joinName dir name))
    match isDir with
    | none => pure false
    | some true => removeDir (joinName dir name)
    | some false => Sys.ask (.unlink (joinName dir name))

/-- The loop of `remove_dir_contents_posix` over the names that `readdir` gives. -/
def removeEntries (removeDir : Bytes → SysProg Bool) (dir : Bytes) : List Bytes → SysProg Bool
  | [] => pure true
  | name :: names =>
      if Copy.isEntry name then do
        let removed ← removeEntry removeDir dir name
        if removed then removeEntries removeDir dir names else pure false
      else removeEntries removeDir dir names

/-- `remove_dir_contents_posix`. -/
def removeDirContents (removeDir : Bytes → SysProg Bool) (dir : Bytes) : SysProg Bool := do
  let listing ← Sys.ask (.io (.opendir dir))
  match listing with
  | none => pure false
  | some (names, failed) =>
      let removed ← removeEntries removeDir dir names
      pure (removed && !failed)

/-- `remove_dir_recursive_posix` down to `depth` directories. -/
def removeDirAt : Nat → Bytes → SysProg Bool
  | 0, _ => pure false
  | depth + 1, dir => do
      let emptied ← removeDirContents (removeDirAt depth) dir
      if emptied then Sys.ask (.rmdir dir) else pure false

/-- `remove_dir_recursive_posix`: a directory that is entered has a longer path, and none of `pathMax` bytes is
    entered, so that the depth is not used up (`removeDirAt_eq`). -/
def removeDirRecursive (dir : Bytes) : SysProg Bool := removeDirAt (pathMax + 1) dir

/-- `platform_fs_remove_path`. -/
def platformFsRemovePath (path : Bytes) : SysProg Bool :=
  if path = [] then pure false
  else do
    let isDir ← Sys.ask (.lstat path)
    match isDir with
    | none => pure false
    | some true => removeDirRecursive path
    | some false => Sys.ask (.unlink path)

/-! ## The depth -/

variable {removeDir removeDir' : Bytes → SysProg Bool} {dir : Bytes}

/-- An entry is removed by going into a longer path, if at all. -/
theorem removeEntry_congr {name : Bytes}
    (h : ∀ path : Bytes, dir.length < path.length → path.length < pathMax → removeDir path = removeDir' path) :
    removeEntry removeDir dir name = removeEntry removeDir' dir name := by
  unfold removeEntry
  split
  · rfl
  · next hroom =>
    have hlen : (joinName dir name).length = dir.length + (name.length + 1) := by
      rw [joinName, List.length_append, List.length_cons]
    refine congrArg (Sys.ask (.lstat (joinName dir name)) >>= ·) (funext fun isDir => ?_)
    cases isDir with
    | none => rfl
    | some isDir =>
        cases isDir with
        | true => exact h _ (by omega) (by omega)
        | false => rfl

theorem removeEntries_congr
    (h : ∀ path : Bytes, dir.length < path.length → path.length < pathMax → removeDir path = removeDir' path)
    (names : List Bytes) : removeEntries removeDir dir names = removeEntries removeDir' dir names := by
  induction names with
  | nil => rfl
  | cons name names ih =>
      unfold removeEntries
      rw [removeEntry_congr h, ih]

/-- **The depth is not used up**: with room for the bytes that the path has left, it makes no difference. -/
theorem removeDirAt_eq {depth depth' : Nat} (hdepth : pathMax ≤ depth + dir.length)
    (hdepth' : pathMax ≤ depth' + dir.length) : removeDirAt (depth + 1) dir = removeDirAt (depth' + 1) dir := by
  induction depth generalizing dir depth' with
  | zero =>
      -- the path is so long that no entry is gone into
      have hnone : ∀ path : Bytes, dir.length < path.length → path.length < pathMax →
          removeDirAt 0 path = removeDirAt depth' path := fun path _ _ => by omega
      unfold removeDirAt removeDirContents
      simp only [removeEntries_congr hnone]
  | succ depth ih =>
      cases depth' with
      | zero =>
          have hnone : ∀ path : Bytes, dir.length < path.length → path.length < pathMax →
              removeDirAt (depth + 1) path = removeDirAt 0 path := fun path _ _ => by omega
          unfold removeDirAt removeDirContents
          simp only [removeEntries_congr hnone]
      | succ depth' =>
          have hdeeper : ∀ path : Bytes, dir.length < path.length → path.length < pathMax →
              removeDirAt (depth + 1) path = removeDirAt (depth' + 1) path :=
            fun path _ _ => ih (by omega) (by omega)
          rw [removeDirAt, removeDirAt, removeDirContents, removeDirContents]
          simp only [removeEntries_congr hdeeper]

/-! ## What is gone -/

/-- From `s` to `t` nothing has changed but that paths in `S` are gone. A removal that is cut off or gives up leaves its
    file system so, whatever it came to. -/
def Gone (S : List Bytes → Prop) (s t : Fs) : Prop := ∃ gone : List Bytes → Bool, (∀ q, gone q = true → S q) ∧ t = s.prune gone

/-- Below a directory, but not the directory itself. -/
def StrictlyBelow (p q : List Bytes) : Prop := p <+: q ∧ q ≠ p

namespace Gone

variable {S S' : List Bytes → Prop} {s t u : Fs}

theorem refl (S : List Bytes → Prop) (s : Fs) : Gone S s s :=
  ⟨fun _ => false, fun _ h => absurd h Bool.false_ne_true, (FileTree.prune_none s).symm⟩

theorem trans (h₁ : Gone S s t) (h₂ : Gone S t u) : Gone S s u := by
  obtain ⟨a, ha, rfl⟩ := h₁
  obtain ⟨b, hb, rfl⟩ := h₂
  refine ⟨fun q => a q || b q, fun q hq => ?_, FileTree.prune_prune s a b⟩
  exact (Bool.or_eq_true_iff.mp hq).elim (ha q) (hb q)

theorem mono (h : Gone S s t) (hS : ∀ q, S q → S' q) : Gone S' s t := by
  obtain ⟨a, ha, rfl⟩ := h
  exact ⟨a, fun q hq => hS q (ha q hq), rfl⟩

/-- Nothing else has changed. -/
theorem get_eq (h : Gone S s t) {q : List Bytes} (hq : ¬ S q) : t.get q = s.get q := by
  obtain ⟨a, ha, rfl⟩ := h
  rw [FileTree.get_prune, if_neg fun hgone => hq (ha q hgone)]

/-- What is there was there. -/
theorem of_get (h : Gone S s t) {q : List Bytes} {n : Node FileNode} (hq : t.get q = some n) : s.get q = some n := by
  obtain ⟨a, ha, rfl⟩ := h
  rw [FileTree.get_prune] at hq
  split at hq
  · cases hq
  · exact hq

theorem get_eq_none (h : Gone S s t) {q : List Bytes} (hq : s.get q = none) : t.get q = none := by
  obtain ⟨a, ha, rfl⟩ := h
  rw [FileTree.get_prune, hq, ite_self]

theorem removeUnder (s : Fs) (p : List Bytes) : Gone (p <+: ·) s (s.removeUnder p) := by
  refine ⟨fun q => decide (p <+: q), fun q hq => of_decide_eq_true hq, ?_⟩
  refine (FileTree.prune_eq_removeUnder (fun q hq => of_decide_eq_true hq) fun q hq => ?_).symm
  rw [FileTree.get_prune, if_pos (decide_eq_true hq)]

/-- All that lay below a path is gone. -/
theorem eq_removeUnder {p : List Bytes} (h : Gone (p <+: ·) s t) (hnone : ∀ q, p <+: q → t.get q = none) :
    t = s.removeUnder p := by
  obtain ⟨a, ha, rfl⟩ := h
  exact FileTree.prune_eq_removeUnder ha hnone

end Gone

theorem strictlyBelow_child {p q : List Bytes} {x : Bytes} (h : p ++ [x] <+: q) : StrictlyBelow p q := by
  refine ⟨(List.prefix_append p [x]).trans h, ?_⟩
  rintro rfl
  have hlen := h.length_le
  rw [List.length_append] at hlen
  exact Nat.not_succ_le_self _ hlen

/-- Below a directory there is one of its entries on the way. -/
theorem StrictlyBelow.child {p q : List Bytes} (h : StrictlyBelow p q) : ∃ x, p ++ [x] <+: q := by
  obtain ⟨⟨r, rfl⟩, hne⟩ := h
  cases r with
  | nil => exact absurd (List.append_nil p) hne
  | cons x r =>
      refine ⟨x, r, ?_⟩
      rw [List.append_assoc]
      rfl

/-! ## What a removal does -/

/-- The paths of all that is in a directory fit the buffers of `remove_dir_contents_posix`, so that no entry is given up
    for its length. -/
def FitsBelow (dir : Bytes) (t : Fs) : Prop :=
  ∀ q, (t.get (fsPath dir ++ q)).isSome → (Copy.joined dir q).length < pathMax

/-- What lies below a path of a finite file system fits where each of its entries does. -/
theorem fits_of_forall {dir : Bytes} {p : List Bytes} {t : Fs}
    (h : ∀ n ∈ t, (Copy.joined dir (n.1.drop p.length)).length < pathMax) (q : List Bytes)
    (hq : (t.get (p ++ q)).isSome) : (Copy.joined dir q).length < pathMax := by
  obtain ⟨n, hmem⟩ := FileTree.get_isSome_iff.mp hq
  have hshort := h _ hmem
  rwa [List.drop_left] at hshort

theorem FitsBelow.of_gone {S : List Bytes → Prop} {s t : Fs} (h : FitsBelow dir s) (hgone : Gone S s t) :
    FitsBelow dir t := by
  intro q hq
  obtain ⟨n, hn⟩ := Option.isSome_iff_exists.mp hq
  exact h q (by rw [hgone.of_get hn]; rfl)

theorem FitsBelow.child {x : Bytes} {t : Fs} (h : FitsBelow dir t) (hx : FileName x) :
    FitsBelow (joinName dir x) t := by
  intro q hq
  rw [fsPath_joinName dir hx, List.append_assoc] at hq
  exact h (x :: q) hq

section

variable {newMode : Nat} {strict : Prop} {s : Volume}

/-- While a removal goes on: a part of what lies below the path is gone, or all of it with the path. -/
def Removing (p : List Bytes) (s t : Volume) : Prop :=
  Gone (StrictlyBelow p) s.1 t.1 ∨ t.1 = s.1.removeUnder p

/-- How one attempt at a removal ends: with all of it gone, or with a part of what lies below the path gone. Where
    nothing is disturbed and the paths fit, it succeeds. -/
def Removed (strict : Prop) (dir : Bytes) (s : Volume) (removed : Bool) (t : Volume) : Prop :=
  if removed then t.1 = s.1.removeUnder (fsPath dir)
  else Gone (StrictlyBelow (fsPath dir)) s.1 t.1 ∧ ¬ (strict ∧ FitsBelow dir s.1)

/-- The program removes what is at the path, and nothing else is ever touched: the form of the lemmas about the
    functions of `platform_fs.c` that call each other. -/
abbrev RemovesAt (newMode : Nat) (strict : Prop) (dir : Bytes) (p : SysProg Bool) (s : Volume) : Prop :=
  Safe (Sys.device newMode) (crashContract (Sys.device newMode) (Sys.Undisturbed strict) (Removing (fsPath dir) s))
    (Removed strict dir s) p s

/-- The rule of a call. -/
theorem safe_call {α : Type} {good : Sys.Outcome → Prop} {I : Volume → Prop} {Q : α → Volume → Prop} {o : Sys.Op}
    {f : Sys.Res o → SysProg α} (hI : ∀ e, I ((Sys.device newMode).step o e s).2)
    (hf : ∀ e : Sys.Outcome, good e →
      Safe (Sys.device newMode) (crashContract (Sys.device newMode) good I) Q (f ((Sys.device newMode).step o e s).1)
        ((Sys.device newMode).step o e s).2) :
    Safe (Sys.device newMode) (crashContract (Sys.device newMode) good I) Q (Sys.ask o >>= f) s :=
  fun e he => ⟨hI, hI e, hf e he⟩

/-- A call that asks: it changes nothing. -/
theorem safe_asks {α : Type} {good : Sys.Outcome → Prop} {I : Volume → Prop} {Q : α → Volume → Prop} {o : Sys.Op}
    {f : Sys.Res o → SysProg α} (hasks : ∀ e t, (Sys.stepTree newMode o e t).2 = t) (hI : I s)
    (hf : ∀ e : Sys.Outcome, good e →
      Safe (Sys.device newMode) (crashContract (Sys.device newMode) good I) Q (f (Sys.stepTree newMode o (e o) s.1).1) s) :
    Safe (Sys.device newMode) (crashContract (Sys.device newMode) good I) Q (Sys.ask o >>= f) s := by
  have hsame : ∀ e, ((Sys.device newMode).step o e s).2 = s := fun e => Subtype.ext (hasks (e o) s.1)
  intro e he
  refine ⟨fun e' => ?_, ?_, ?_⟩
  · show I ((Sys.device newMode).step o e' s).2
    rwa [hsame]
  · show I ((Sys.device newMode).step o e s).2
    rwa [hsame]
  · rw [hsame]
    exact hf e he

/-- `lstat` finds a directory or a file, unless it fails or there is nothing. -/
theorem stepLstat_cases (path : Bytes) (ok : Bool) (t : Fs) :
    (Sys.stepLstat path ok t = none ∧ (ok = true → t.get (fsPath path) = none))
      ∨ (Sys.stepLstat path ok t = some true ∧ t.isDir (fsPath path) = true)
      ∨ (Sys.stepLstat path ok t = some false ∧ ∃ f, t.fileAt (fsPath path) = some f) := by
  unfold Sys.stepLstat
  cases ok with
  | false => exact Or.inl ⟨rfl, fun h => by cases h⟩
  | true =>
      rw [if_pos rfl]
      split
      · next hdir => exact Or.inr (Or.inl ⟨rfl, hdir⟩)
      next hdir =>
      split
      · next hthere =>
        refine Or.inr (Or.inr ⟨rfl, ?_⟩)
        exact (FileTree.file_or_dir hthere).resolve_right hdir
      · next hnone => exact Or.inl ⟨rfl, fun _ => by simpa using hnone⟩

/-- The last call of a program. -/
theorem safe_last {good : Sys.Outcome → Prop} {I : Volume → Prop} {o : Sys.Op} {Q : Sys.Res o → Volume → Prop}
    (hI : ∀ e t, ((Sys.device newMode).step o e s).2 = t → I t)
    (hQ : ∀ e : Sys.Outcome, good e → ∀ t, ((Sys.device newMode).step o e s).2 = t →
      Q (Sys.stepTree newMode o (e o) s.1).1 t) :
    Safe (Sys.device newMode) (crashContract (Sys.device newMode) good I) Q (Sys.ask o) s :=
  fun e he => ⟨fun e' => hI e' _ rfl, hI e _ rfl, hQ e he _ rfl⟩

/-- What `remove` does to what has nothing in it. -/
theorem stepRemoveOne_cases (path : Bytes) (ok : Bool) (t : Fs) :
    Copy.stepRemoveOne path ok t = (false, t)
      ∨ Copy.stepRemoveOne path ok t = (true, t.prune fun q => q == fsPath path) ∧ t.children (fsPath path) = [] := by
  unfold Copy.stepRemoveOne
  split
  · next h => exact Or.inr ⟨rfl, List.isEmpty_iff.mp (Bool.and_eq_true_iff.mp h).2⟩
  · exact Or.inl rfl

/-- With the last entry gone, nothing is left below. -/
theorem removeUnder_of_children {t : Fs} (ht : t.WellFormed) {p : List Bytes} (h : t.children p = []) :
    t.prune (fun q => q == p) = t.removeUnder p := by
  refine FileTree.prune_eq_removeUnder (fun q hq => ?_) fun q hq => ?_
  · exact eq_of_beq hq ▸ List.prefix_refl p
  · rw [FileTree.get_prune]
    split
    · rfl
    · next hne =>
      have hbelow : StrictlyBelow p q := ⟨hq, fun heq => hne (by rw [heq]; exact beq_self_eq_true p)⟩
      obtain ⟨x, hx⟩ := hbelow.child
      have hnone := Copy.get_eq_none_of_children (List.isEmpty_iff.mpr h) x
      exact ht.get_eq_none_below hnone (List.append_ne_nil_of_right_ne_nil _ (List.cons_ne_nil _ _)) hx

/-- A file, or an empty directory, goes in one call. -/
theorem stepRemoveOne_removes (path : Bytes) (ok : Bool) {t : Fs} (ht : t.WellFormed) :
    Copy.stepRemoveOne path ok t = (false, t)
      ∨ Copy.stepRemoveOne path ok t = (true, t.removeUnder (fsPath path)) := by
  refine (stepRemoveOne_cases path ok t).imp_right fun h => ?_
  rw [h.1, removeUnder_of_children ht h.2]

/-- A file has nothing in it. -/
theorem children_of_fileAt {t : Fs} (ht : t.WellFormed) {p : List Bytes} {f : FileNode} (hf : t.fileAt p = some f) :
    t.children p = [] := by
  rw [List.eq_nil_iff_forall_not_mem]
  intro x hx
  have hnone := ht.get_eq_none (ht.isDir_of_fileAt hf) x
  rw [FileTree.mem_children, hnone] at hx
  cases hx

theorem unlink_removes {path : Bytes} {f : FileNode} (hf : s.1.fileAt (fsPath path) = some f) :
    RemovesAt newMode strict path (Sys.ask (.unlink path)) s := by
  have hstep : ∀ ok, Sys.stepUnlink path ok s.1 = Copy.stepRemoveOne path ok s.1 := by
    intro ok
    rw [Sys.stepUnlink, hf]
    rfl
  refine safe_last (fun e t ht => ?_) fun e he t ht => ?_
  · rw [← ht]
    show Gone _ _ (Sys.stepUnlink path _ s.1).2 ∨ (Sys.stepUnlink path _ s.1).2 = _
    rw [hstep]
    rcases stepRemoveOne_removes path (e (.unlink path)) s.2.tree with h | h
    · rw [h]
      exact Or.inl (.refl _ _)
    · rw [h]
      exact Or.inr rfl
  · rw [← ht]
    unfold Removed
    show if (Sys.stepUnlink path _ s.1).1 then (Sys.stepUnlink path _ s.1).2 = _ else Gone _ _ (Sys.stepUnlink path _ s.1).2 ∧ _
    rw [hstep]
    rcases stepRemoveOne_removes path (e (.unlink path)) s.2.tree with h | h
    · rw [h]
      refine ⟨.refl _ _, fun hstrict => ?_⟩
      -- nothing stands in the way of an undisturbed call
      have hturn : e (.unlink path) = true := he hstrict.1 (.unlink path)
      unfold Copy.stepRemoveOne at h
      rw [hturn, children_of_fileAt s.2.tree hf, FileTree.get_of_fileAt hf] at h
      cases h
    · rw [h]
      rfl

/-- Removing all that is left is removing all that was there. -/
theorem Gone.removeUnder_eq {p : List Bytes} {s t : Fs} (h : Gone (p <+: ·) s t) :
    t.removeUnder p = s.removeUnder p := by
  refine (h.trans (.removeUnder t p)).eq_removeUnder fun q hq => ?_
  rw [FileTree.get_removeUnder, if_pos hq]

theorem Gone.weaken {p : List Bytes} {s t : Fs} (h : Gone (StrictlyBelow p) s t) : Gone (p <+: ·) s t :=
  h.mono fun _ hq => hq.1

/-- What a removal of an entry leaves, seen from its directory. -/
theorem Removing.child {p : List Bytes} {x : Bytes} {s t : Volume} (h : Removing (p ++ [x]) s t) :
    Gone (StrictlyBelow p) s.1 t.1 := by
  rcases h with h | h
  · exact h.mono fun q hq => strictlyBelow_child hq.1
  · rw [h]
    exact (Gone.removeUnder s.1 (p ++ [x])).mono fun q hq => strictlyBelow_child hq

/-- An entry is removed, if a directory is. -/
theorem removeEntry_removes {x : Bytes} (hx : FileName x) (hthere : (s.1.get (fsPath dir ++ [x])).isSome)
    (hdeeper : s.1.get (fsPath (joinName dir x)) = some .dir →
      RemovesAt newMode strict (joinName dir x) (removeDir (joinName dir x)) s) :
    RemovesAt newMode strict (joinName dir x) (removeEntry removeDir dir x) s := by
  have hpath : fsPath (joinName dir x) = fsPath dir ++ [x] := fsPath_joinName dir hx
  have hlen : (joinName dir x).length = dir.length + (x.length + 1) := by
    rw [joinName, List.length_append, List.length_cons]
  have hfail : (strict → ¬ FitsBelow (joinName dir x) s.1) → Removed strict (joinName dir x) s false s :=
    fun hno => ⟨.refl _ _, fun h => hno h.1 h.2⟩
  unfold removeEntry
  split
  · next hlong =>
    refine hfail fun _ hfits => ?_
    -- the entry itself does not fit
    have hself : (joinName dir x).length < pathMax := by
      refine hfits [] ?_
      rwa [List.append_nil, hpath]
    omega
  · refine safe_asks (fun _ _ => rfl) (Or.inl (.refl _ _)) fun e he => ?_
    have hstep : (Sys.stepTree newMode (.lstat (joinName dir x)) (e (.lstat (joinName dir x))) s.1).1
        = Sys.stepLstat (joinName dir x) (e (.lstat (joinName dir x))) s.1 := rfl
    rw [hstep]
    rcases stepLstat_cases (joinName dir x) (e (.lstat (joinName dir x))) s.1
      with ⟨h, hnone⟩ | ⟨h, hdir⟩ | ⟨h, f, hf⟩
    · rw [h]
      refine hfail fun hstrict _ => ?_
      -- an undisturbed call finds the entry
      rw [← hpath, hnone (he hstrict (.lstat (joinName dir x)))] at hthere
      cases hthere
    · rw [h]
      refine hdeeper ?_
      rcases FileTree.isDir_iff.mp hdir with hroot | hdir
      · rw [hpath] at hroot
        exact absurd hroot (List.append_ne_nil_of_right_ne_nil _ (List.cons_ne_nil _ _))
      · exact hdir
    · rw [h]
      exact unlink_removes hf

/-- The loop removes the entries one after the other, up to the first that it cannot remove. -/
theorem removeEntries_removes {names : List Bytes} {t : Volume} (hgone : Gone (StrictlyBelow (fsPath dir)) s.1 t.1)
    (hnodup : names.Nodup) (hnames : ∀ x ∈ names, FileName x ∧ (t.1.get (fsPath dir ++ [x])).isSome)
    (hdeeper : ∀ (u : Volume) x, u.1.get (fsPath (joinName dir x)) = some .dir →
      RemovesAt newMode strict (joinName dir x) (removeDir (joinName dir x)) u) :
    Safe (Sys.device newMode)
      (crashContract (Sys.device newMode) (Sys.Undisturbed strict) fun u => Gone (StrictlyBelow (fsPath dir)) s.1 u.1)
      (fun removed u => Gone (StrictlyBelow (fsPath dir)) t.1 u.1
        ∧ if removed then ∀ x ∈ names, u.1.get (fsPath dir ++ [x]) = none else ¬ (strict ∧ FitsBelow dir t.1))
      (removeEntries removeDir dir names) t := by
  induction names generalizing t with
  | nil => exact ⟨.refl _ _, fun x hx => by cases hx⟩
  | cons x names ih =>
      obtain ⟨⟨hx, hthere⟩, hnames⟩ := List.forall_mem_cons.mp hnames
      obtain ⟨hnot, hnodup⟩ := List.nodup_cons.mp hnodup
      unfold removeEntries
      rw [if_pos (Copy.isEntry_of_fileName hx)]
      refine Safe.bind (((removeEntry_removes hx hthere (hdeeper t x)).crash_mono ?_).mono ?_)
      · intro u hu
        rw [fsPath_joinName dir hx] at hu
        exact hgone.trans hu.child
      intro removed t₁ hremoved
      cases removed with
      | false =>
          obtain ⟨hpart, hno⟩ := hremoved
          rw [fsPath_joinName dir hx] at hpart
          refine ⟨hpart.mono fun q hq => strictlyBelow_child hq.1, fun h => hno ⟨h.1, h.2.child hx⟩⟩
      | true =>
          have ht₁ : t₁.1 = t.1.removeUnder (fsPath dir ++ [x]) := by
            rw [← fsPath_joinName dir hx]
            exact hremoved
          have hfirst : Gone (StrictlyBelow (fsPath dir)) t.1 t₁.1 := by
            rw [ht₁]
            exact (Gone.removeUnder _ _).mono fun q hq => strictlyBelow_child hq
          -- the other entries are still there
          have hleft : ∀ y ∈ names, FileName y ∧ (t₁.1.get (fsPath dir ++ [y])).isSome := by
            intro y hy
            refine ⟨(hnames y hy).1, ?_⟩
            rw [ht₁, FileTree.get_removeUnder, if_neg]
            · exact (hnames y hy).2
            · intro hway
              have hlen : (fsPath dir ++ [x]).length = (fsPath dir ++ [y]).length := by
                rw [List.length_append, List.length_append]
                rfl
              have heq := List.append_cancel_left (hway.eq_of_length hlen)
              exact hnot ((List.cons.inj heq).1 ▸ hy)
          refine (ih (hgone.trans hfirst) hnodup hleft).mono ?_
          rintro rest u ⟨hrest, hends⟩
          refine ⟨hfirst.trans hrest, ?_⟩
          cases rest with
          | false => exact fun h => hends ⟨h.1, h.2.of_gone hfirst⟩
          | true =>
              refine List.forall_mem_cons.mpr ⟨?_, hends⟩
              apply hrest.get_eq_none
              rw [ht₁, FileTree.get_removeUnder, if_pos (List.prefix_refl _)]

theorem removeEntries_filter (removeDir : Bytes → SysProg Bool) (dir : Bytes) (names : List Bytes) :
    removeEntries removeDir dir names = removeEntries removeDir dir (names.filter Copy.isEntry) := by
  induction names with
  | nil => rfl
  | cons x names ih =>
      by_cases hx : Copy.isEntry x = true
      · rw [List.filter_cons_of_pos hx, removeEntries, removeEntries, if_pos hx, if_pos hx, ih]
      · rw [List.filter_cons_of_neg hx, removeEntries, if_neg hx, ih]

/-- A directory is emptied, if the directories in it are removed. -/
theorem removeDirContents_empties (hdir : s.1.isDir (fsPath dir) = true)
    (hdeeper : ∀ (u : Volume) x, u.1.get (fsPath (joinName dir x)) = some .dir →
      RemovesAt newMode strict (joinName dir x) (removeDir (joinName dir x)) u) :
    Safe (Sys.device newMode)
      (crashContract (Sys.device newMode) (Sys.Undisturbed strict) fun u => Gone (StrictlyBelow (fsPath dir)) s.1 u.1)
      (fun emptied u => Gone (StrictlyBelow (fsPath dir)) s.1 u.1
        ∧ if emptied then u.1.children (fsPath dir) = [] else ¬ (strict ∧ FitsBelow dir s.1))
      (removeDirContents removeDir dir) s := by
  unfold removeDirContents
  refine safe_asks (fun _ _ => rfl) (.refl _ _) fun e he => ?_
  have hstep : (Sys.stepTree newMode (.io (.opendir dir)) (e (.io (.opendir dir))) s.1).1
      = Copy.stepOpendir dir (e (.io (.opendir dir))) s.1 := rfl
  rw [hstep]
  have hfine : strict → ∃ names, Copy.stepOpendir dir (e (.io (.opendir dir))) s.1 = some (names, false) := by
    intro hstrict
    obtain ⟨order, horder⟩ : ∃ order, e (.io (.opendir dir)) = some (order, none) := he hstrict (.io (.opendir dir))
    refine ⟨Copy.enumerate order (s.1.children (fsPath dir)), ?_⟩
    rw [horder, Copy.stepOpendir, hdir]
    rfl
  cases hopen : Copy.stepOpendir dir (e (.io (.opendir dir))) s.1 with
  | none =>
      refine ⟨.refl _ _, fun h => ?_⟩
      obtain ⟨names, hnames⟩ := hfine h.1
      rw [hopen] at hnames
      cases hnames
  | some listing =>
      obtain ⟨names, failed⟩ := listing
      have hlisting := Copy.stepOpendir_listing s.2 hopen
      show Safe _ _ _ (removeEntries removeDir dir names >>= fun removed => pure (removed && !failed)) s
      rw [removeEntries_filter]
      refine Safe.bind ((removeEntries_removes (.refl _ _) hlisting.nodup hlisting.sound hdeeper).mono ?_)
      rintro removed u ⟨hgone, hends⟩
      refine ⟨hgone, ?_⟩
      cases removed with
      | false => exact hends
      | true =>
          cases failed with
          | true =>
              intro h
              obtain ⟨names', hnames'⟩ := hfine h.1
              rw [hopen] at hnames'
              cases hnames'
          | false =>
              -- what was not in the listing was not there
              show u.1.children (fsPath dir) = []
              rw [List.eq_nil_iff_forall_not_mem]
              intro x hx
              obtain ⟨n, hn⟩ := Option.isSome_iff_exists.mp (FileTree.mem_children.mp hx)
              have hold : (s.1.get (fsPath dir ++ [x])).isSome := by
                rw [hgone.of_get hn]
                rfl
              rw [hends x (hlisting.complete rfl x hold)] at hn
              cases hn

/-- **A directory is removed.** By induction on the depth; what is gone in the directories below is gone below. -/
theorem removeDirAt_removes {depth : Nat} (hdepth : pathMax < depth + dir.length)
    (hdir : s.1.get (fsPath dir) = some .dir) : RemovesAt newMode strict dir (removeDirAt depth dir) s := by
  induction depth generalizing dir s with
  | zero =>
      refine ⟨.refl _ _, fun h => ?_⟩
      have hself : dir.length < pathMax := by
        refine h.2 [] ?_
        rw [List.append_nil, hdir]
        rfl
      omega
  | succ depth ih =>
      have hlonger : ∀ x, dir.length < (joinName dir x).length := by
        intro x
        rw [joinName, List.length_append, List.length_cons]
        omega
      unfold removeDirAt
      refine Safe.bind (((removeDirContents_empties (FileTree.isDir_iff.mpr (Or.inr hdir)) ?_).crash_mono ?_).mono ?_)
      · exact fun u x hu => ih (by have := hlonger x; omega) hu
      · exact fun u hu => Or.inl hu
      rintro emptied u ⟨hgone, hends⟩
      cases emptied with
      | false => exact ⟨hgone, hends⟩
      | true =>
          have hleft : u.1.get (fsPath dir) = some .dir := by
            rw [hgone.get_eq fun h => h.2 rfl]
            exact hdir
          have hempty : u.1.children (fsPath dir) = [] := hends
          have hstep : ∀ ok, Sys.stepRmdir dir ok u.1 = Copy.stepRemoveOne dir ok u.1 := by
            intro ok
            rw [Sys.stepRmdir, if_pos hleft]
          have hwhole : u.1.removeUnder (fsPath dir) = s.1.removeUnder (fsPath dir) := hgone.weaken.removeUnder_eq
          show Safe _ _ _ (Sys.ask (.rmdir dir)) u
          refine safe_last (fun e t ht => ?_) fun e he t ht => ?_
          · rw [← ht]
            show Gone _ _ (Sys.stepRmdir dir _ u.1).2 ∨ (Sys.stepRmdir dir _ u.1).2 = _
            rw [hstep, ← hwhole]
            rcases stepRemoveOne_removes dir (e (.rmdir dir)) u.2.tree with h | h
            · rw [h]
              exact Or.inl hgone
            · rw [h]
              exact Or.inr rfl
          · rw [← ht]
            unfold Removed
            show if (Sys.stepRmdir dir _ u.1).1 then (Sys.stepRmdir dir _ u.1).2 = _
              else Gone _ _ (Sys.stepRmdir dir _ u.1).2 ∧ _
            rw [hstep, ← hwhole]
            rcases stepRemoveOne_removes dir (e (.rmdir dir)) u.2.tree with h | h
            · rw [h]
              refine ⟨hgone, fun hstrict => ?_⟩
              have hturn : e (.rmdir dir) = true := he hstrict.1 (.rmdir dir)
              unfold Copy.stepRemoveOne at h
              rw [hturn, hempty, hleft] at h
              cases h
            · rw [h]
              rfl

/-- **What is at a path is removed**, call by call: the directory or file itself goes last, in one call. -/
theorem platformFsRemovePath_removes {path : Bytes} (hroot : fsPath path ≠ []) (hthere : (s.1.get (fsPath path)).isSome) :
    RemovesAt newMode strict path (platformFsRemovePath path) s := by
  unfold platformFsRemovePath
  have hne : path ≠ [] := by
    rintro rfl
    exact hroot rfl
  rw [if_neg hne]
  refine safe_asks (fun _ _ => rfl) (Or.inl (.refl _ _)) fun e he => ?_
  have hstep : (Sys.stepTree newMode (.lstat path) (e (.lstat path)) s.1).1
      = Sys.stepLstat path (e (.lstat path)) s.1 := rfl
  rw [hstep]
  rcases stepLstat_cases path (e (.lstat path)) s.1 with ⟨h, hnone⟩ | ⟨h, hdir⟩ | ⟨h, f, hf⟩
  · rw [h]
    refine ⟨.refl _ _, fun hstrict => ?_⟩
    rw [hnone (he hstrict.1 (.lstat path))] at hthere
    cases hthere
  · rw [h]
    refine removeDirAt_removes (by omega) ?_
    exact (FileTree.isDir_iff.mp hdir).resolve_left hroot
  · rw [h]
    exact unlink_removes hf

/-- Where there is nothing, nothing is removed. -/
theorem platformFsRemovePath_missing {path : Bytes} (hroot : fsPath path ≠ []) (hnone : s.1.get (fsPath path) = none)
    {I : Volume → Prop} (hI : I s) :
    Safe (Sys.device newMode) (crashContract (Sys.device newMode) (Sys.Undisturbed strict) I)
      (fun removed t => removed = false ∧ t = s) (platformFsRemovePath path) s := by
  unfold platformFsRemovePath
  split
  · exact ⟨rfl, rfl⟩
  · refine safe_asks (fun _ _ => rfl) hI fun e he => ?_
    have hstep : (Sys.stepTree newMode (.lstat path) (e (.lstat path)) s.1).1
        = Sys.stepLstat path (e (.lstat path)) s.1 := rfl
    rw [hstep]
    rcases stepLstat_cases path (e (.lstat path)) s.1 with ⟨h, _⟩ | ⟨_, hdir⟩ | ⟨_, f, hf⟩
    · rw [h]
      exact ⟨rfl, rfl⟩
    · rcases FileTree.isDir_iff.mp hdir with h | h
      · exact absurd h hroot
      · rw [hnone] at h
        cases h
    · rw [FileTree.get_of_fileAt hf] at hnone
      cases hnone

end

/-! ## The removal as one operation -/

section

variable {newMode : Nat} {strict : Prop} {s t : Volume}

/-- What is gone when a removal stops is what the operation may have removed. -/
theorem stepRemove_of_gone {path : Bytes} (hthere : (s.1.get (fsPath path)).isSome)
    (h : Gone (StrictlyBelow (fsPath path)) s.1 t.1) :
    ∃ e : FsOutcome, e.ok = false ∧ stepRemove path e s.1 = (false, t.1) := by
  refine ⟨⟨false, fun q => (t.1.get q).isNone, none⟩, rfl, ?_⟩
  have hpart : s.1.prune (partlyGone (fsPath path) fun q => (t.1.get q).isNone) = t.1 := by
    obtain ⟨gone, hgone, ht⟩ := h
    have hget : ∀ q, t.1.get q = if gone q then none else s.1.get q := by
      intro q
      rw [ht, FileTree.get_prune]
    refine Eq.trans (FileTree.prune_congr fun q hq => ?_) ht.symm
    rw [Bool.eq_iff_iff]
    constructor
    · intro hpart
      obtain ⟨n, hn, hcut⟩ := List.any_eq_true.mp hpart
      simp only [Bool.and_eq_true, decide_eq_true_eq] at hcut
      have hnone : t.1.get (q.take n) = none := Option.isNone_iff_eq_none.mp hcut.2
      have hlong : q.take n ≠ [] := by
        intro hnil
        have hlen := congrArg List.length hnil
        rw [List.length_take, List.length_nil] at hlen
        omega
      -- with a path that is gone, what is below it is gone
      have hbelow := t.2.tree.get_eq_none_below hnone hlong (List.take_prefix n q)
      rw [hget] at hbelow
      split at hbelow
      · next hq' => exact hq'
      · rw [hbelow] at hq
        cases hq
    · intro hq'
      obtain ⟨hway, hne⟩ := hgone q hq'
      refine List.any_eq_true.mpr ⟨q.length, List.mem_range.mpr (Nat.lt_succ_self _), ?_⟩
      have hshort : (fsPath path).length < q.length := by
        refine Nat.lt_of_le_of_ne hway.length_le fun hlen => hne ?_
        exact (hway.eq_of_length hlen).symm
      rw [List.take_length]
      simp only [Bool.and_eq_true, decide_eq_true_eq]
      refine ⟨⟨⟨List.isPrefixOf_iff_prefix.mpr hway, hshort⟩, Nat.le_refl _⟩, ?_⟩
      rw [hget, hq']
      rfl
  unfold stepRemove
  rw [if_neg (by rw [Option.isNone_iff_eq_none]; rintro hnone; rw [hnone] at hthere; cases hthere)]
  rw [if_neg Bool.false_ne_true, hpart]

theorem stepRemove_whole {path : Bytes} (hthere : (s.1.get (fsPath path)).isSome) :
    stepRemove path okOutcome s.1 = (true, s.1.removeUnder (fsPath path)) := by
  unfold stepRemove
  rw [if_neg (by rw [Option.isNone_iff_eq_none]; rintro hnone; rw [hnone] at hthere; cases hthere)]
  rfl

theorem stepRemove_missing {path : Bytes} (hnone : s.1.get (fsPath path) = none) (e : FsOutcome) :
    stepRemove path e s.1 = (false, s.1) := by
  unfold stepRemove
  rw [hnone]
  rfl

namespace Sys

/-- What carries out an operation under `platform_fs.c`: a removal is a program, the others are calls. -/
def fsCall : (o : FsOp) → SysProg (FsRes o)
  | .remove path => platformFsRemovePath path
  | o => ask (.io (.fs o))

/-- What is asked of an operation of `Platform.Fs` for its program here to end as the one operation there: the root is
    not removed; and where removals are to succeed, paths are short. -/
def FsCallOk (strict : Prop) (o : FsOp) (t : Fs) : Prop :=
  ∀ path, o = .remove path → fsPath path ≠ [] ∧ (strict → FitsBelow path t)

/-- **The operations under `platform_fs.c` are carried out call by call.** -/
theorem fsCall_implements (newMode : Nat) (strict : Prop) :
    Implements (device newMode) (fsDevice newMode) (fun s t => s.1 = t) (Undisturbed strict)
      (fun e => strict → e.ok = true) (FsCallOk strict) fsCall := by
  have hcall : ∀ (o : FsOp) (s : Volume),
      Safe (device newMode)
        (crashContract (device newMode) (Undisturbed strict) (Between (fsDevice newMode) (fun s t => s.1 = t) o s.1))
        (Completes (fsDevice newMode) (fun s t => s.1 = t) (fun e => strict → e.ok = true) o s.1)
        (ask (.io (.fs o))) s := by
    intro o s
    refine safe_last (fun e t ht => Or.inr ⟨e (.io (.fs o)), ?_⟩) fun e he t ht => ⟨e (.io (.fs o)), ?_, rfl, ?_⟩
    · rw [← ht]
      rfl
    · intro hstrict
      exact he hstrict (.io (.fs o))
    · rw [← ht]
      rfl
  rintro o s _ hpre rfl
  cases o with
  | mkdir path => exact hcall _ s
  | extractTo data path => exact hcall _ s
  | chmod path mode => exact hcall _ s
  | move src dst => exact hcall _ s
  | remove path =>
      obtain ⟨hroot, hfits⟩ := hpre path rfl
      have hmissing : ∀ e, (fsDevice newMode).step (.remove path) e s.1 = stepRemove path e s.1 := fun _ => rfl
      show Safe _ _ _ (platformFsRemovePath path) s
      by_cases hthere : (s.1.get (fsPath path)).isSome
      · refine ((platformFsRemovePath_removes hroot hthere).crash_mono ?_).mono ?_
        · rintro t (ht | ht)
          · obtain ⟨e, _, he⟩ := stepRemove_of_gone hthere ht
            exact Or.inr ⟨e, by rw [hmissing, he]⟩
          · refine Or.inr ⟨okOutcome, ?_⟩
            rw [hmissing, stepRemove_whole hthere]
            exact ht
        · intro removed t hremoved
          cases removed with
          | true =>
              have ht : t.1 = s.1.removeUnder (fsPath path) := hremoved
              refine ⟨okOutcome, fun _ => rfl, ?_⟩
              rw [hmissing, stepRemove_whole hthere]
              exact ⟨rfl, ht⟩
          | false =>
              obtain ⟨hgone, hno⟩ := hremoved
              obtain ⟨e, _, he⟩ := stepRemove_of_gone hthere hgone
              refine ⟨e, fun hstrict => absurd ⟨hstrict, hfits hstrict⟩ hno, ?_⟩
              rw [hmissing, he]
              exact ⟨rfl, rfl⟩
      · have hnone : s.1.get (fsPath path) = none := by simpa using hthere
        refine (platformFsRemovePath_missing hroot hnone (Or.inl rfl)).mono ?_
        rintro removed t ⟨rfl, rfl⟩
        refine ⟨okOutcome, fun _ => rfl, ?_⟩
        rw [hmissing, stepRemove_missing hnone]
        exact ⟨rfl, rfl⟩

/-! ## Attempts -/

/-- The attempts of `update_remove_tree`. -/
def removeAttempts (path : Bytes) : Nat → SysProg UpdateStatus
  | 0 => pure .error
  | n + 1 => do
      let removed ← platformFsRemovePath path
      if removed then pure .ok else removeAttempts path n

/-- `update_remove_tree`. -/
def updateRemoveTree (path : Bytes) : SysProg UpdateStatus :=
  if path = [] then pure .error else removeAttempts path 16

/-- How `update_remove_tree` ends, after up to sixteen attempts: each takes up what the one before it has left. -/
def TreeRemoved (strict : Prop) (path : Bytes) (s : Volume) (status : UpdateStatus) (t : Volume) : Prop :=
  status = .ok ∧ t.1 = s.1.removeUnder (fsPath path)
    ∨ status = .error ∧ Gone (StrictlyBelow (fsPath path)) s.1 t.1 ∧ ¬ (strict ∧ FitsBelow path s.1)

theorem removeAttempts_removes {path : Bytes} (hroot : fsPath path ≠ []) (n : Nat) {t : Volume}
    (hthere : (t.1.get (fsPath path)).isSome) (hgone : Gone (StrictlyBelow (fsPath path)) s.1 t.1)
    (hfirst : n = 0 → ¬ (strict ∧ FitsBelow path s.1)) :
    Safe (device newMode) (crashContract (device newMode) (Undisturbed strict) (Removing (fsPath path) s))
      (TreeRemoved strict path s) (removeAttempts path n) t := by
  induction n generalizing t with
  | zero => exact Or.inr ⟨rfl, hgone, hfirst rfl⟩
  | succ n ih =>
      have hwhole : t.1.removeUnder (fsPath path) = s.1.removeUnder (fsPath path) := hgone.weaken.removeUnder_eq
      refine Safe.bind (((platformFsRemovePath_removes hroot hthere).crash_mono ?_).mono ?_)
      · rintro u (hu | hu)
        · exact Or.inl (hgone.trans hu)
        · exact Or.inr (hu.trans hwhole)
      intro removed u hremoved
      cases removed with
      | true =>
          have hu : u.1 = t.1.removeUnder (fsPath path) := hremoved
          exact Or.inl ⟨rfl, hu.trans hwhole⟩
      | false =>
          obtain ⟨hpart, hno⟩ := hremoved
          refine ih ?_ (hgone.trans hpart) fun _ h => hno ⟨h.1, h.2.of_gone hgone⟩
          -- the path itself is still there for the next attempt
          rwa [hpart.get_eq fun h => h.2 rfl]

/-- **`update_remove_tree` removes a tree**, or leaves its root with a part of what was in it. -/
theorem updateRemoveTree_removes {path : Bytes} (hroot : fsPath path ≠ [])
    (hthere : (s.1.get (fsPath path)).isSome) :
    Safe (device newMode) (crashContract (device newMode) (Undisturbed strict) (Removing (fsPath path) s))
      (TreeRemoved strict path s) (updateRemoveTree path) s := by
  unfold updateRemoveTree
  rw [if_neg (by rintro rfl; exact hroot rfl)]
  exact removeAttempts_removes hroot 16 hthere (.refl _ _) fun h => by cases h

/-- A tree that is not there is not removed. -/
theorem updateRemoveTree_missing {path : Bytes} (hroot : fsPath path ≠ []) (hnone : s.1.get (fsPath path) = none)
    {I : Volume → Prop} (hI : I s) :
    Safe (device newMode) (crashContract (device newMode) (Undisturbed strict) I)
      (fun status t => status = .error ∧ t = s) (updateRemoveTree path) s := by
  have hattempts : ∀ n, Safe (device newMode) (crashContract (device newMode) (Undisturbed strict) I)
      (fun status t => status = .error ∧ t = s) (removeAttempts path n) s := by
    intro n
    induction n with
    | zero => exact ⟨rfl, rfl⟩
    | succ n ih =>
        refine Safe.bind ((platformFsRemovePath_missing hroot hnone hI).mono ?_)
        rintro removed t ⟨rfl, rfl⟩
        exact ih
  unfold updateRemoveTree
  split
  · exact ⟨rfl, rfl⟩
  · exact hattempts 16

/-- No call of a list of outcomes is disturbed. -/
theorem forall_turns {turns : Nat → Outcome} (h : ∀ i, Undisturbed True (turns i)) (m : Nat) :
    ∀ e ∈ (List.range m).map turns, Undisturbed True e := by
  intro e he
  obtain ⟨i, _, rfl⟩ := List.mem_map.mp he
  exact h i

/-- **A removal, call by call.** Cut off after any of its calls, each failing or not, `update_remove_tree` has taken away
    nothing but what lies below the path, or all of it with the path. It succeeds only with all of it gone, and where
    it gives up, the path itself is as it was. Undisturbed, it removes any tree whose paths fit the buffers. -/
theorem updateRemoveTree_exact (newMode : Nat) (path : Bytes) (hroot : fsPath path ≠ []) (s : Volume) :
    (∀ es : List Outcome,
        let run := (device newMode).run (updateRemoveTree path) es s
        Removing (fsPath path) s run.final
          ∧ (run.result = some .ok → (s.1.get (fsPath path)).isSome ∧ run.final.1 = s.1.removeUnder (fsPath path))
          ∧ (run.result = some .error → Gone (StrictlyBelow (fsPath path)) s.1 run.final.1))
      ∧ ((s.1.get (fsPath path)).isSome → FitsBelow path s.1 →
        ∀ turns : Nat → Outcome, (∀ i, Undisturbed True (turns i)) →
          ∃ n, ∀ m, n ≤ m →
            let run := (device newMode).run (updateRemoveTree path) ((List.range m).map turns) s
            run.result = some .ok ∧ run.final.1 = s.1.removeUnder (fsPath path)) := by
  refine ⟨fun es => ?_, fun hthere hfits turns hturns => ?_⟩
  · intro run
    have hany : ∀ ev ∈ run.events, Undisturbed False ev.outcome := fun _ _ h => h.elim
    by_cases hthere : (s.1.get (fsPath path)).isSome
    · have hsafe : Safe (device newMode) (crashContract (device newMode) (Undisturbed False) (Removing (fsPath path) s))
          (TreeRemoved False path s) (updateRemoveTree path) s := updateRemoveTree_removes hroot hthere
      refine ⟨hsafe.final_sound (Or.inl (.refl _ _)) hany, fun hr => ⟨hthere, ?_⟩, fun hr => ?_⟩
      · rcases (hsafe.run_sound hany).2 _ hr with ⟨_, hgone⟩ | ⟨hr, _⟩
        · exact hgone
        · cases hr
      · rcases (hsafe.run_sound hany).2 _ hr with ⟨hr, _⟩ | ⟨_, hgone, _⟩
        · cases hr
        · exact hgone
    · -- there is nothing to remove, and nothing is removed
      have hnone : s.1.get (fsPath path) = none := by
        simpa using hthere
      have hsafe : Safe (device newMode) (crashContract (device newMode) (Undisturbed False) fun t => t = s)
          (fun status t => status = .error ∧ t = s) (updateRemoveTree path) s :=
        updateRemoveTree_missing hroot hnone rfl
      have hsame : run.final = s := hsafe.final_sound (show s = s from rfl) hany
      rw [hsame]
      refine ⟨Or.inl (.refl _ _), fun hr => ?_, fun _ => .refl _ _⟩
      have herror := ((hsafe.run_sound hany).2 _ hr).1
      cases herror
  · have hsafe : Safe (device newMode) (crashContract (device newMode) (Undisturbed True) (Removing (fsPath path) s))
        (TreeRemoved True path s) (updateRemoveTree path) s := updateRemoveTree_removes hroot hthere
    obtain ⟨n, hn⟩ := (device newMode).run_returns (updateRemoveTree path) turns s
    refine ⟨n, fun m hm => ?_⟩
    obtain ⟨status, hr⟩ := Option.isSome_iff_exists.mp (hn m hm)
    have hfine : ∀ ev ∈ ((device newMode).run (updateRemoveTree path) ((List.range m).map turns) s).events,
        Undisturbed True ev.outcome := fun ev hev => forall_turns hturns m _ ((device newMode).outcome_mem hev)
    rcases (hsafe.run_sound hfine).2 _ hr with ⟨rfl, hgone⟩ | ⟨_, _, hno⟩
    · exact ⟨hr, hgone⟩
    · exact absurd ⟨trivial, hfits⟩ hno

/-- A directory with a file in it. -/
def removedVolume : Volume :=
  (Volume.empty.put (ascii "/d") .dir (by decide +kernel)).put (ascii "/d/f") (.file ⟨ascii "1", 0o644⟩)
    (by decide +kernel)

/-- Cut off after three calls, and undisturbed. -/
theorem updateRemoveTree_exact_sample :
    Removing (fsPath (ascii "/d")) removedVolume
        ((device 420).run (updateRemoveTree (ascii "/d")) (List.replicate 3 fineOutcome) removedVolume).final
      ∧ ∃ n, ∀ m, n ≤ m →
        ((device 420).run (updateRemoveTree (ascii "/d")) ((List.range m).map fun _ => fineOutcome)
          removedVolume).final.1 = [] := by
  obtain ⟨hany, hfine⟩ := updateRemoveTree_exact 420 (ascii "/d") (by decide +kernel) removedVolume
  have hfits : FitsBelow (ascii "/d") removedVolume.1 := fits_of_forall (by decide +kernel)
  obtain ⟨n, hn⟩ := hfine (by decide +kernel) hfits (fun _ => fineOutcome) fun _ => undisturbed_fineOutcome True
  have hempty : removedVolume.1.removeUnder (fsPath (ascii "/d")) = [] := by
    decide +kernel
  exact ⟨(hany (List.replicate 3 fineOutcome)).1, n, fun m hm => (hn m hm).2.trans hempty⟩

end Sys

end

end LibUpdate
