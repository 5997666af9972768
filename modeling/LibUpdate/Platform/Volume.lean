import LibUpdate.Platform.Fs
import LibUpdate.Foundation.Subtree

/-!
# `Platform.Volume` — file systems that can be, and the way to a directory

A `Volume` is a tree of directories in which every name is one that a file can have; the operations keep it one.

`mkdir -p` goes down the way to a directory (`wayTo`). It makes nothing but directories on the way that were not
there, and where no operation fails and no file is in the way, it makes all of them.
-/

namespace LibUpdate

/-! ## Names -/

/-- A name that a file can have. -/
def FileName (x : Bytes) : Prop := x ≠ [] ∧ x ≠ dot ∧ x ≠ dotdot ∧ ∀ c ∈ x, isPathSep c = false

instance (x : Bytes) : Decidable (FileName x) := inferInstanceAs (Decidable (_ ∧ _))

/-- `dir/name`. -/
def joinName (dir name : Bytes) : Bytes := dir ++ ch '/' :: name

/-- A name leads one directory further. -/
theorem fsPath_joinName (dir : Bytes) {x : Bytes} (hx : FileName x) : fsPath (joinName dir x) = fsPath dir ++ [x] := by
  obtain ⟨hne, hdot, hdotdot, hsep⟩ := hx
  have hsplit : x.splitOnP isPathSep = [x] := List.splitOnP_eq_singleton hsep
  have hdown : NoDotDot isPathSep x := by
    rw [NoDotDot, hsplit, List.mem_singleton]
    exact Ne.symm hdotdot
  rw [fsPath, joinName, resolvePath_join (by decide) hdown, names, hsplit,
    List.filter_cons_of_pos (by simp [hne, hdot])]
  rfl

/-- A path leads through names. -/
theorem fsPath_names (p : Bytes) : ∀ x ∈ fsPath p, FileName x := by
  have hsegs : ∀ (segs dir : List Bytes), (∀ seg ∈ segs, ∀ c ∈ seg, isPathSep c = false) →
      (∀ x ∈ dir, FileName x) → ∀ x ∈ segs.foldl resolveStep dir, FileName x := by
    intro segs
    induction segs with
    | nil => exact fun dir _ hdir => hdir
    | cons seg segs ih =>
        intro dir hsegs hdir
        obtain ⟨hseg, hsegs⟩ := List.forall_mem_cons.mp hsegs
        apply ih (resolveStep dir seg) hsegs
        unfold resolveStep
        split
        · exact hdir
        next hstay =>
        split
        · intro x hx
          exact hdir x (List.dropLast_subset _ hx)
        · next hup =>
          simp only [Bool.or_eq_true, decide_eq_true_eq, not_or] at hstay
          intro x hx
          rcases List.mem_append.mp hx with hx | hx
          · exact hdir x hx
          · rw [List.mem_singleton] at hx
            exact hx ▸ ⟨hstay.1, hstay.2, hup, hseg⟩
  exact hsegs _ [] (splitOnP_no_sep p) (fun x hx => by cases hx)

/-! ## Disks -/

/-- A tree of directories in which every name is one that a file can have. -/
structure Posix (t : Fs) : Prop where
  tree : t.WellFormed
  names : ∀ p n, t.get p = some n → ∀ x ∈ p, FileName x

/-- A file system that can be: a tree of directories with names that a file can have. System calls keep it one. -/
abbrev Volume := { t : Fs // Posix t }

theorem Posix.nil : Posix [] := by
  refine ⟨.nil, ?_⟩
  intro p n h
  cases h

/-- Putting a node where a path leads, into a directory, but not over a directory. -/
theorem Posix.set {t : Fs} (h : Posix t) {p : Bytes} {n : Node FileNode} (hp : t.isDir (fsPath p).dropLast = true)
    (hn : t.isDir (fsPath p) = false) : Posix (t.set (fsPath p) n) := by
  refine ⟨h.tree.set hp hn, ?_⟩
  intro q m hm
  rw [FileTree.get_set] at hm
  split at hm
  · next hq => exact hq ▸ fsPath_names p
  · exact h.names q m hm

/-- The disk with nothing on it. -/
def Volume.empty : Volume := ⟨[], .nil⟩

/-- A disk with one node more. -/
def Volume.put (s : Volume) (path : Bytes) (n : Node FileNode)
    (h : s.1.isDir (fsPath path).dropLast = true ∧ s.1.isDir (fsPath path) = false) : Volume :=
  ⟨s.1.set (fsPath path) n, s.2.set h.1 h.2⟩

/-- Nothing but what was there, or what is where the path leads. -/
theorem Posix.of_get {t u : Fs} (h : Posix t) (hu : u.WellFormed) {p : Bytes}
    (hget : ∀ q n, u.get q = some n → (t.get q).isSome ∨ q = fsPath p) : Posix u := by
  refine ⟨hu, ?_⟩
  intro q n hn
  rcases hget q n hn with hsome | rfl
  · obtain ⟨m, hm⟩ := Option.isSome_iff_exists.mp hsome
    exact h.names q m hm
  · exact fsPath_names p

theorem get_set_cases {t : Fs} {p q : List Bytes} {m n : Node FileNode} (h : (t.set p m).get q = some n) :
    (t.get q).isSome ∨ q = p := by
  rw [FileTree.get_set] at h
  split at h
  · next hq => exact Or.inr hq
  · rw [h]
    exact Or.inl rfl

theorem get_prune_isSome {t : Fs} {gone : List Bytes → Bool} {q : List Bytes} {n : Node FileNode}
    (h : (t.prune gone).get q = some n) : (t.get q).isSome := by
  rw [FileTree.get_prune] at h
  split at h
  · cases h
  · rw [h]
    rfl

theorem stepRemove_get {path : Bytes} {e : FsOutcome} {t : Fs} {q : List Bytes} {n : Node FileNode}
    (h : (stepRemove path e t).2.get q = some n) : (t.get q).isSome := by
  unfold stepRemove at h
  split at h
  · rw [h]
    rfl
  split at h
  · exact get_prune_isSome h
  · exact get_prune_isSome h

/-- **Every operation keeps a file system one that can be.** -/
theorem step_posix {newMode : Nat} {o : FsOp} {e : FsOutcome} {t : Fs} (h : Posix t) :
    Posix ((fsDevice newMode).step o e t).2 := by
  have htree : ((fsDevice newMode).step o e t).2.WellFormed := step_wellFormed h.tree
  have hkept : ∀ {q n}, t.get q = some n → (t.get q).isSome := by
    intro q n hn
    rw [hn]
    rfl
  cases o with
  | mkdir path =>
      apply h.of_get (p := path) htree
      intro q n hn
      change (stepMkdir path e t).2.get q = some n at hn
      rcases stepMkdir_cases path e t with ⟨heq, _⟩ | ⟨heq, _⟩ | heq
      · rw [heq] at hn
        exact Or.inl (hkept hn)
      · rw [heq] at hn
        exact get_set_cases hn
      · rw [heq] at hn
        exact Or.inl (hkept hn)
  | remove path =>
      apply h.of_get (p := path) htree
      intro q n hn
      exact Or.inl (stepRemove_get hn)
  | extractTo data path =>
      apply h.of_get (p := path) htree
      intro q n hn
      change (stepExtractTo newMode data path e t).2.get q = some n at hn
      unfold stepExtractTo at hn
      split at hn
      · split at hn
        · exact get_set_cases hn
        · split at hn
          · exact Or.inl (hkept hn)
          · exact get_set_cases hn
      · exact Or.inl (hkept hn)
  | chmod path mode =>
      apply h.of_get (p := path) htree
      intro q n hn
      change (stepChmod path mode e t).2.get q = some n at hn
      unfold stepChmod at hn
      split at hn
      · split at hn
        · exact Or.inl (hkept hn)
        split at hn
        · exact get_set_cases hn
        · exact Or.inl (hkept hn)
      · exact Or.inl (hkept hn)
  | move src dst =>
      apply h.of_get (p := dst) htree
      intro q n hn
      change (stepRename src dst e t).2.get q = some n at hn
      unfold stepRename at hn
      split at hn
      · exact Or.inl (hkept hn)
      split at hn
      · exact (get_set_cases hn).imp_left fun hsome =>
          get_prune_isSome (Option.isSome_iff_exists.mp hsome).choose_spec
      · exact Or.inl (hkept hn)

/-- Whatever a program does, the file system stays one that can be. -/
theorem run_posix {newMode : Nat} {α : Type} (p : FsProg α) (es : List FsOutcome) {t : Fs} (h : Posix t) :
    Posix ((fsDevice newMode).run p es t).final := by
  rcases (fsDevice newMode).final_mem p es t with heq | ⟨ev, hev, heq⟩
  · rw [heq]
    exact h
  · rw [heq]
    exact (fsDevice newMode).run_invariant (fun _ _ _ hs => step_posix hs) p es h ev hev

/-! ## The way to a directory -/

/-- The directories that `mkdir -p` comes to, in order. -/
def wayTo (path : Bytes) : List Bytes := parentDirs path ++ [path]

/-- From `s` to `t` nothing but directories at these places, where nothing was. -/
def GrownAt (places : List (List Bytes)) (s t : Fs) : Prop :=
  ∀ q, t.get q = s.get q ∨ (q ∈ places ∧ s.isDir q = false ∧ s.get q = none ∧ t.get q = some .dir)

section

variable {newMode : Nat} {places : List (List Bytes)} {s t u : Fs}

theorem GrownAt.refl (places : List (List Bytes)) (s : Fs) : GrownAt places s s := fun _ => Or.inl rfl

theorem GrownAt.mono {more : List (List Bytes)} (h : GrownAt places s t) (hmore : ∀ q ∈ places, q ∈ more) :
    GrownAt more s t := by
  intro q
  exact (h q).imp_right fun hq => ⟨hmore q hq.1, hq.2⟩

theorem GrownAt.trans (h₁ : GrownAt places s t) (h₂ : GrownAt places t u) : GrownAt places s u := by
  intro q
  rcases h₂ q with h | ⟨hplace, hdir, hnone, hmade⟩
  · rw [h]
    exact h₁ q
  · rcases h₁ q with h | ⟨_, _, _, hmade'⟩
    · exact Or.inr ⟨hplace, (isDir_congr h).symm.trans hdir, h.symm.trans hnone, hmade⟩
    · rw [hmade'] at hnone
      cases hnone

theorem GrownAt.grown (h : GrownAt places s t) : Grown s t := by
  intro q
  exact (h q).imp_right fun hq => hq.2.2

theorem stepMkdir_grownAt {path : Bytes} {e : FsOutcome} {r : Bool} (h : stepMkdir path e s = (r, t)) :
    GrownAt [fsPath path] s t := by
  rcases stepMkdir_cases path e s with ⟨heq, _⟩ | ⟨heq, hnone, hdir, _⟩ | heq
  · cases heq.symm.trans h
    exact .refl _ s
  · cases heq.symm.trans h
    intro q
    rw [FileTree.get_set]
    split
    · next hq =>
      subst hq
      exact Or.inr ⟨List.mem_singleton.mpr rfl, hdir, hnone, rfl⟩
    · exact Or.inl rfl
  · cases heq.symm.trans h
    exact .refl _ s

/-- How `mkdir -p` ends: nothing but directories on the way, and all of them where it succeeds. -/
def MadeWay (dirs : List Bytes) (s : Fs) (ok : Bool) (t : Fs) : Prop :=
  GrownAt (dirs.map fsPath) s t ∧ (ok = true → ∀ d ∈ dirs, t.isDir (fsPath d) = true)

theorem mkdirAll_madeWay (dirs : List Bytes) (s : Fs) : Yields newMode (MadeWay dirs s) (mkdirAll dirs) s := by
  induction dirs generalizing s with
  | nil => exact ⟨.refl _ s, fun _ d hd => by cases hd⟩
  | cons d dirs ih =>
      apply yields_perform
      intro e made t hstep
      have hfirst : GrownAt ((d :: dirs).map fsPath) s t := by
        apply (stepMkdir_grownAt hstep).mono
        intro q hq
        rw [List.mem_singleton.mp hq]
        exact List.mem_cons_self
      cases made with
      | false => exact ⟨hfirst, fun hok => by cases hok⟩
      | true =>
          apply (ih t).mono
          rintro ok u ⟨hrest, hdirs⟩
          have hrest' : GrownAt ((d :: dirs).map fsPath) t u := hrest.mono fun q hq => List.mem_cons_of_mem _ hq
          refine ⟨hfirst.trans hrest', ?_⟩
          intro hok d' hd'
          rcases List.mem_cons.mp hd' with rfl | hd'
          · exact hrest.grown.isDir ((stepMkdir_grown hstep).2 rfl)
          · exact hdirs hok d' hd'

/-- **`mkdir -p` makes nothing but directories on the way**, and all of them where it succeeds. -/
theorem createDirectoryRecursive_madeWay (path : Bytes) (s : Fs) :
    Yields newMode (MadeWay (wayTo path) s) (createDirectoryRecursive path) s := by
  unfold createDirectoryRecursive
  split; · exact ⟨.refl _ s, fun hok => by cases hok⟩
  split; · exact ⟨.refl _ s, fun hok => by cases hok⟩
  exact mkdirAll_madeWay (wayTo path) s

end

/-! ### The way goes down step by step -/

/-- The first place at which a path may be cut. -/
def firstCut (path : Bytes) : Nat := if path.head?.any isPathSep then 1 else 0

/-- `mkdir -p` cuts the path here. -/
def cutAt (path : Bytes) (i : Nat) : Bool := firstCut path < i && path[i]?.any isPathSep

theorem parentDirs_eq (path : Bytes) :
    parentDirs path = ((List.range path.length).filter (cutAt path)).map path.take := rfl

section

variable {a b : Bytes}

theorem cutAt_before {i : Nat} (hi : i < a.length) : cutAt (joinName a b) i = cutAt a i := by
  have hhead : firstCut (joinName a b) = firstCut a := by
    cases a with
    | nil => cases hi
    | cons c a => rfl
  rw [cutAt, hhead, joinName, List.getElem?_append_left hi]
  rfl

theorem cutAt_here : cutAt (joinName a b) a.length = decide (firstCut a < a.length) := by
  have hsep : (joinName a b)[a.length]?.any isPathSep = true := by
    rw [joinName, List.getElem?_append_right (Nat.le_refl _), Nat.sub_self]
    rfl
  rw [cutAt, hsep, Bool.and_true]
  cases a with
  | nil => rfl
  | cons c a => rfl

theorem cutAt_behind (hb : ∀ c ∈ b, isPathSep c = false) (i : Nat) :
    cutAt (joinName a b) (a.length + (i + 1)) = false := by
  rw [cutAt, joinName, List.getElem?_append_right (Nat.le_add_right _ _), Nat.add_sub_cancel_left,
    List.getElem?_cons_succ, Bool.and_eq_false_iff]
  right
  cases hget : b[i]? with
  | none => rfl
  | some c => exact hb c (List.mem_of_getElem? hget)

/-- The last segment adds one directory to the way, unless it is the first one. -/
theorem parentDirs_join (hb : ∀ c ∈ b, isPathSep c = false) :
    parentDirs (joinName a b) = parentDirs a ++ if firstCut a < a.length then [a] else [] := by
  have hlen : (joinName a b).length = a.length + (b.length + 1) := by
    rw [joinName, List.length_append, List.length_cons]
  have htake : ∀ i ≤ a.length, (joinName a b).take i = a.take i := fun i hi => List.take_append_of_le_length hi
  have hbehind :
      ((List.range b.length).map ((fun x => a.length + x) ∘ Nat.succ)).filter (cutAt (joinName a b)) = [] := by
    rw [List.filter_eq_nil_iff]
    intro i hi
    obtain ⟨j, _, rfl⟩ := List.mem_map.mp hi
    rw [Bool.not_eq_true]
    exact cutAt_behind hb j
  have hbefore : (List.range a.length).filter (cutAt (joinName a b)) = (List.range a.length).filter (cutAt a) :=
    List.filter_congr fun i hi => cutAt_before (List.mem_range.mp hi)
  rw [parentDirs_eq, hlen, List.range_add, List.filter_append, List.map_append, hbefore, parentDirs_eq]
  congr 1
  · apply List.map_congr_left
    intro i hi
    exact htake i (Nat.le_of_lt (List.mem_range.mp (List.mem_filter.mp hi).1))
  · rw [List.range_succ_eq_map, List.map_cons, List.filter_cons, List.map_map, hbehind, Nat.add_zero, cutAt_here]
    by_cases hstart : firstCut a < a.length
    · rw [if_pos (decide_eq_true hstart), if_pos hstart, List.map_singleton, htake _ (Nat.le_refl _), List.take_length]
    · rw [if_neg (by simpa using hstart), if_neg hstart]
      rfl

/-- Where the way does not begin, there is nothing but the root. -/
theorem fsPath_of_short (h : ¬ firstCut a < a.length) : parentDirs a = [] ∧ fsPath a = [] := by
  unfold firstCut at h
  cases a with
  | nil => exact ⟨rfl, rfl⟩
  | cons c a =>
      split at h
      · next hsep =>
        cases a with
        | cons d a =>
            refine absurd ?_ h
            rw [List.length_cons, List.length_cons]
            omega
        | nil =>
            have hc : isPathSep c = true := hsep
            have hsplit : [c].splitOnP isPathSep = [[], []] := List.splitOnP_append_cons [] [] hc
            constructor
            · show List.map _ (List.filter _ _) = []
              rw [List.map_eq_nil_iff, List.filter_eq_nil_iff]
              intro i hi
              obtain rfl : i = 0 := by simpa using hi
              rw [if_pos hsep]
              simp
            · rw [fsPath, resolvePath, hsplit]
              rfl
      · rw [List.length_cons] at h
        omega

end

/-- What lies in a directory is in a directory, and so is the directory itself. -/
theorem Posix.isDir_step {t : Fs} (h : Posix t) {dir : List Bytes} (hdir : t.isDir dir = true) (seg : Bytes) :
    t.isDir (resolveStep dir seg).dropLast = true := by
  unfold resolveStep
  split
  · exact h.tree.isDir_of_prefix (List.dropLast_prefix _) hdir
  split
  · exact h.tree.isDir_of_prefix ((List.dropLast_prefix _).trans (List.dropLast_prefix _)) hdir
  · rwa [List.dropLast_concat]

/-! ### Where no operation fails -/

section

variable {newMode : Nat} {s t : Fs} {p : Bytes}

/-- No operation is made to fail. -/
def nothingFails : Contract FsOp FsOutcome Fs := ⟨fun ev => ev.outcome.ok = true, fun _ => True, fun _ => True⟩

/-- A directory can be made in a directory, unless a file is there. -/
theorem stepMkdir_made {e : FsOutcome} (he : e.ok = true) (hfile : s.fileAt (fsPath p) = none)
    (hparent : s.isDir (fsPath p).dropLast = true) : (stepMkdir p e s).1 = true := by
  unfold stepMkdir
  rw [he, Bool.true_and, Bool.true_and]
  split
  · rfl
  next hdir =>
  cases hget : s.get (fsPath p) with
  | none =>
      rw [hparent]
      rfl
  | some n =>
      cases n with
      | dir => exact absurd (FileTree.isDir_iff.mpr (Or.inr hget)) hdir
      | file f =>
          unfold FileTree.fileAt at hfile
          rw [hget] at hfile
          cases hfile

theorem fileAt_congr {q : List Bytes} (h : t.get q = s.get q) : t.fileAt q = s.fileAt q := by
  unfold FileTree.fileAt
  rw [h]

theorem Grown.fileAt_eq (h : Grown s t) (q : List Bytes) : t.fileAt q = s.fileAt q := by
  rcases h q with heq | ⟨hnone, hdir⟩
  · exact fileAt_congr heq
  · unfold FileTree.fileAt
    rw [hnone, hdir]

/-- All of the way is there, and nothing else is changed. -/
structure WayMade (p : Bytes) (s t : Fs) : Prop where
  grown : Grown s t
  posix : Posix t
  dirs : ∀ d ∈ wayTo p, t.isDir (fsPath d) = true

/-- The last step of the way. -/
theorem mkdir_last {first : List Bytes} {dir : List Bytes} {seg : Bytes} (hway : wayTo p = first ++ [p])
    (hp : fsPath p = resolveStep dir seg) (hfile : s.fileAt (fsPath p) = none)
    (hfirst : Safe (fsDevice newMode) nothingFails (fun ok t => ok = true ∧ Grown s t ∧ Posix t
      ∧ (∀ d ∈ first, t.isDir (fsPath d) = true) ∧ t.isDir dir = true) (mkdirAll first) s) :
    Safe (fsDevice newMode) nothingFails (fun ok t => ok = true ∧ WayMade p s t) (mkdirAll (wayTo p)) s := by
  have hseq : mkdirAll (first ++ [p]) = (mkdirAll first >>= fun ok => if ok then mkdirAll [p] else pure false) := by
    clear hway hfirst
    induction first with
    | nil => rfl
    | cons d first ih =>
        show Prog.op _ _ = Prog.op _ _
        congr 1
        funext made
        cases made with
        | true => exact ih
        | false => rfl
  rw [hway, hseq]
  apply Safe.bind
  apply hfirst.mono
  rintro ok t ⟨rfl, hgrown, hposix, hdirs, hdir⟩
  apply Safe.perform
  intro e made u he hstep
  have hparent : t.isDir (fsPath p).dropLast = true := by
    rw [hp]
    exact hposix.isDir_step hdir seg
  have hmade : (stepMkdir p e t).1 = true := stepMkdir_made he ((hgrown.fileAt_eq _).trans hfile) hparent
  have hstep : stepMkdir p e t = (made, u) := hstep
  obtain ⟨hgrown', hlast⟩ := stepMkdir_grown hstep
  have hposix' : Posix (stepMkdir p e t).2 := (step_posix hposix : Posix ((fsDevice newMode).step (.mkdir p) e t).2)
  rw [hstep] at hmade hposix'
  obtain rfl : made = true := hmade
  refine ⟨trivial, trivial, rfl, hgrown.trans hgrown', hposix', ?_⟩
  intro d hd
  rw [hway] at hd
  rcases List.mem_append.mp hd with hd | hd
  · exact hgrown'.isDir (hdirs d hd)
  · rw [List.mem_singleton.mp hd]
    exact hlast rfl

/-- **Where no operation fails and no file is in the way, all of the way is made.** -/
theorem wayTo_made (hs : Posix s) (hfree : ∀ d ∈ wayTo p, s.fileAt (fsPath d) = none) :
    Safe (fsDevice newMode) nothingFails (fun ok t => ok = true ∧ WayMade p s t) (mkdirAll (wayTo p)) s := by
  induction p using sep_induction isPathSep with
  | leaf b hb =>
      have hway : wayTo b = [] ++ [b] := by
        rw [wayTo, parentDirs_eq, List.filter_eq_nil_iff.mpr]
        · rfl
        intro i _
        rw [Bool.not_eq_true, cutAt, Bool.and_eq_false_iff]
        right
        cases hget : b[i]? with
        | none => rfl
        | some c => exact hb c (List.mem_of_getElem? hget)
      have hpath : fsPath b = resolveStep [] b := by
        rw [fsPath, resolvePath, List.splitOnP_eq_singleton hb]
        rfl
      apply mkdir_last hway hpath (hfree b (by rw [hway]; exact List.mem_singleton.mpr rfl))
      exact ⟨rfl, .refl s, hs, fun d hd => (by cases hd), rfl⟩
  | node a c b hc hb ih =>
      obtain rfl : c = ch '/' := by simpa [isPathSep] using hc
      have hpath : fsPath (joinName a b) = resolveStep (fsPath a) b := by
        rw [fsPath, resolvePath, joinName, splitOnP_last rfl hb, List.foldl_append]
        rfl
      have hjoin := parentDirs_join (a := a) hb
      by_cases hstart : firstCut a < a.length
      · rw [if_pos hstart] at hjoin
        have hway : wayTo (joinName a b) = wayTo a ++ [joinName a b] := by rw [wayTo, hjoin, wayTo]
        have hfree' : ∀ d ∈ wayTo (joinName a b), s.fileAt (fsPath d) = none := hfree
        rw [hway, List.forall_mem_append] at hfree'
        apply mkdir_last hway hpath (hfree'.2 _ (List.mem_singleton.mpr rfl))
        apply (ih hfree'.1).mono
        rintro ok t ⟨rfl, hmade⟩
        exact ⟨rfl, hmade.grown, hmade.posix, hmade.dirs, hmade.dirs a (by simp [wayTo])⟩
      · obtain ⟨hnone, hroot⟩ := fsPath_of_short hstart
        rw [if_neg hstart, hnone] at hjoin
        have hway : wayTo (joinName a b) = [] ++ [joinName a b] := by rw [wayTo, hjoin, List.append_nil]
        apply mkdir_last hway hpath (hfree _ (by rw [← joinName, hway]; exact List.mem_singleton.mpr rfl))
        refine ⟨rfl, .refl s, hs, fun d hd => (by cases hd), ?_⟩
        rw [hroot]
        rfl

/-- **`mkdir -p` succeeds** where no operation fails and no file is in the way. -/
theorem createDirectoryRecursive_made (hs : Posix s) (hne : p ≠ []) (hshort : p.length < pathMax)
    (hfree : ∀ d ∈ wayTo p, s.fileAt (fsPath d) = none) :
    Safe (fsDevice newMode) nothingFails (fun ok t => ok = true ∧ WayMade p s t) (createDirectoryRecursive p) s := by
  unfold createDirectoryRecursive
  rw [if_neg hne, if_neg (by omega)]
  exact wayTo_made hs hfree

end

end LibUpdate
