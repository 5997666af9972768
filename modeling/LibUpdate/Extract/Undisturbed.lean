import LibUpdate.Extract.Exact

/-!
# `Extract.Undisturbed` — where nothing fails, a clean archive is extracted

An extraction can fail without any operation being made to fail: an entry is refused, a file stands where another
entry needs a directory, a temporary name is taken. A clean archive has none of this (`CleanArchive`), and what is
extracted of it never gets in its own way (`Filling`): into an empty destination it is extracted to the end
(`updateExtract_clean`).
-/

namespace LibUpdate

/-! ## Clean archives -/

/-- Every entry is accepted, and no two of them get in each other's way. -/
structure CleanArchive (dest : Bytes) (entries : List Entry) : Prop where
  accepted : ∀ e ∈ entries, (entryPath dest e).isSome
  -- a name with a separator at its end is that of a directory
  named : ∀ e ∈ entries, e.isDir = false → e.filename.getLast? ≠ some (ch '/')
  -- nothing lies at or below the temporary path of a file
  clear : ∀ a ∈ entries, ∀ b ∈ entries, b.isDir = false → ¬ relTmp b <+: relKey a
  apart : ∀ a ∈ entries, ∀ b ∈ entries, a.isDir = false → relKey a <+: relKey b →
    b.isDir = false ∧ relKey a = relKey b

variable {newMode : Nat} {dest : Bytes} {entries : List Entry} {e : Entry} {s t u : Fs}

/-- What the checks of an entry have found. -/
theorem entryPath_isSome (h : (entryPath dest e).isSome) :
    entryPath dest e = some (fullPathOf dest e) ∧ NameSafe e.filename ∧ (fullPathOf dest e).length < pathMax
      ∧ dot ∉ e.filename.splitOnP isPathSep := by
  obtain ⟨path, hpath⟩ := Option.isSome_iff_exists.mp h
  obtain ⟨rfl, hsafe⟩ := entryPath_eq hpath
  refine ⟨hpath, hsafe, ?_⟩
  unfold entryPath at hpath
  split at hpath; · cases hpath
  split at hpath; · cases hpath
  split at hpath; · cases hpath
  next hname =>
  split at hpath; · cases hpath
  next joined hjoin =>
  have hshort : (fullPathOf dest e).length < pathMax := by
    have hlen := (snprintf_eq_some.mp hjoin).1
    have hslash : ascii "/" = [ch '/'] := by
      decide +kernel
    rwa [hslash, List.append_assoc, List.singleton_append] at hlen
  have hplain : ∀ c ∈ dot, isAnySep c = false := by
    decide +kernel
  refine ⟨hshort, not_mem_splitOnP_coarsen (fun c hc => ?_) hplain fun hmem => ?_⟩
  · rw [isAnySep, Bool.or_eq_true]
    exact Or.inl hc
  · have hname : zipEntryNameSafe e.filename = true := by simpa using hname
    unfold zipEntryNameSafe at hname
    split at hname; · cases hname
    split at hname; · cases hname
    split at hname; · cases hname
    have hdot := List.all_eq_true.mp hname dot hmem
    revert hdot
    decide

theorem beforeLastSlash_join {base rest : Bytes} (hrest : ∀ c ∈ rest, isPathSep c = false) :
    beforeLastSlash (base ++ ch '/' :: rest) = some base := by
  have hany : (base ++ ch '/' :: rest).any isPathSep = true :=
    List.any_eq_true.mpr ⟨ch '/', by simp, by decide⟩
  have hskip : ∀ c ∈ rest.reverse, (!isPathSep c) = true := by
    intro c hc
    rw [hrest c (List.mem_reverse.mp hc)]
    rfl
  unfold beforeLastSlash
  rw [if_pos hany, List.reverse_append, List.reverse_cons, List.append_assoc, List.dropWhile_append_of_pos hskip]
  simp [isPathSep]

/-- Where a file is put: a name in a directory of the destination, with the temporary file beside it. -/
structure FileSpot (dest : Bytes) (e : Entry) (parent : Bytes) (below : List Bytes) (x : Bytes) : Prop where
  full : fullPathOf dest e = parent ++ ch '/' :: x
  plain : ∀ c ∈ x, isPathSep c = false
  parent_eq : fsPath parent = fsPath dest ++ below
  key : relKey e = below ++ [x]
  tmp : tmpKey dest e = fsPath dest ++ (below ++ [x ++ extractingSuffix])
  down : NoDotDot isPathSep parent

theorem exists_fileSpot (hdest : NoDotDot isAnySep dest) (haccepted : (entryPath dest e).isSome)
    (hfile : e.isDir = false) (hnamed : e.filename.getLast? ≠ some (ch '/')) :
    ∃ parent below x, FileSpot dest e parent below x := by
  obtain ⟨_, hsafe, _, hdot⟩ := entryPath_isSome haccepted
  rcases exists_last_sep isPathSep (fullPathOf dest e) with hnone | ⟨parent, c, x, hfull, hc, hx⟩
  · have hsep := hnone (ch '/') (by simp [fullPathOf])
    cases hsep
  obtain rfl : c = ch '/' := by simpa [isPathSep] using hc
  -- the last segment of the path is that of the name
  have hsegs : parent.splitOnP isPathSep ++ [x] = dest.splitOnP isPathSep ++ e.filename.splitOnP isPathSep := by
    rw [← splitOnP_last hc hx, ← hfull, fullPathOf, List.splitOnP_append_cons _ _ hc]
  obtain ⟨first, seg, hsplit, _, hseg⟩ := exists_last_segment isPathSep e.filename
  obtain ⟨hparent, rfl⟩ : parent.splitOnP isPathSep = dest.splitOnP isPathSep ++ first ∧ x = seg := by
    rw [hsplit, ← List.append_assoc] at hsegs
    obtain ⟨h₁, h₂⟩ := List.append_inj' hsegs rfl
    exact ⟨h₁, (List.cons.inj h₂).1⟩
  have hne : x ≠ [] := by
    intro hempty
    have hall := hseg.mp hempty
    cases hlast : e.filename.getLast? with
    | none =>
        obtain ⟨c, hc, _⟩ := hsafe.starts
        rw [List.getLast?_eq_none_iff.mp hlast] at hc
        cases hc
    | some c =>
        rw [hlast] at hall hnamed
        have hc : isPathSep c = true := hall
        exact hnamed (by simpa [isPathSep] using hc)
  have hxdot : x ≠ dot := by
    rintro rfl
    exact hdot (by rw [hsplit]; simp)
  have hdown : dotdot ∉ first ∧ x ≠ dotdot := by
    have hmem : dotdot ∉ first ++ [x] := hsplit ▸ hsafe.down.slash
    rw [List.mem_append, not_or] at hmem
    exact ⟨hmem.1, fun heq => hmem.2 (heq ▸ List.mem_singleton.mpr rfl)⟩
  have hparentPath : fsPath parent = fsPath dest ++ first.filter fun seg => seg ≠ [] && seg ≠ dot := by
    rw [fsPath, resolvePath, hparent, List.foldl_append, foldl_resolveStep hdown.1]
    rfl
  refine ⟨parent, _, x, hfull, hx, hparentPath, ?_, ?_, ?_⟩
  · rw [relKey, if_neg (by rw [hfile]; exact Bool.false_ne_true), names, hsplit, List.filter_append,
      List.filter_cons_of_pos (by simp [hne, hxdot]), List.filter_nil]
  · have hplain : ∀ c ∈ x ++ extractingSuffix, isPathSep c = false := by
      intro c hc
      have hsuffix : ∀ c ∈ extractingSuffix, isPathSep c = false := by
        decide +kernel
      exact (List.mem_append.mp hc).elim (hx c) (hsuffix c)
    have hlong : 2 < extractingSuffix.length := by
      decide +kernel
    rw [tmpKey, hfull, List.append_assoc, List.cons_append, fsPath, resolvePath, splitOnP_last hc hplain,
      List.foldl_append, List.foldl_cons, List.foldl_nil, resolveStep_long hlong, ← List.append_assoc, ← hparentPath]
    rfl
  · rw [NoDotDot, hparent, List.mem_append, not_or]
    exact ⟨hdest.slash, hdown.1⟩

/-! ## What an undisturbed extraction leaves at each entry -/

/-- No operation is made to fail, and nothing is removed that is there. -/
def undisturbed : Contract FsOp FsOutcome Fs where
  assumes ev := ev.outcome.ok = true
  ensures ev := ∀ path, ev.op = .remove path → ev.before.get (fsPath path) = none
  invariant _ := True

/-- A part of the archive is in the destination, and nothing else. -/
structure Filling (dest : Bytes) (entries : List Entry) (t : Fs) : Prop where
  kept : DestKept dest t
  files : ∀ q f, t.fileAt (fsPath dest ++ q) = some f → ∃ a ∈ entries, a.isDir = false ∧ relKey a = q
  dirs : ∀ q, q ≠ [] → t.isDir (fsPath dest ++ q) = true →
    ∃ a ∈ entries, q <+: relKey a ∧ (a.isDir = false → q ≠ relKey a)

/-- The names lead to a directory of the archive. -/
def DirOf (entries : List Entry) (k : List Bytes) : Prop :=
  k = [] ∨ ∃ a ∈ entries, k <+: relKey a ∧ (a.isDir = false → k ≠ relKey a)

/-- No file is on the way to a directory of the archive. -/
theorem Filling.free (h : Filling dest entries t) (hclean : CleanArchive dest entries) {k : List Bytes}
    (hk : DirOf entries k) {p : List Bytes} (hp : p <+: fsPath dest ++ k) : t.fileAt p = none := by
  cases hfile : t.fileAt p with
  | none => rfl
  | some f =>
      exfalso
      rcases List.prefix_or_prefix_of_prefix hp (List.prefix_append (fsPath dest) k) with hup | ⟨q, rfl⟩
      · -- the directories above the destination are directories
        have hdir := h.kept.1.tree.isDir_of_prefix hup h.kept.2
        rw [h.kept.1.tree.isDir_of_fileAt hfile] at hdir
        cases hdir
      · obtain ⟨a, ha, hadir, rfl⟩ := h.files q f hfile
        rw [List.prefix_append_right_inj] at hp
        rcases hk with rfl | ⟨b, hb, hbk, hbfile⟩
        · have hroot := List.prefix_nil.mp hp
          rw [hroot, List.append_nil, FileTree.fileAt] at hfile
          rcases FileTree.isDir_iff.mp h.kept.2 with hdest | hdest
          · rw [hdest, h.kept.1.tree.root] at hfile
            cases hfile
          · rw [hdest] at hfile
            cases hfile
        · obtain ⟨hfileb, heq⟩ := hclean.apart a ha b hb hadir (hp.trans hbk)
          exact hbfile hfileb (hbk.eq_of_length_le (heq ▸ hp.length_le))

/-- Directories are made on the way to a directory of the archive. -/
theorem Filling.grow (h : Filling dest entries s) {k : List Bytes}
    (hk : DirOf entries k) {places : List (List Bytes)} (hgrown : GrownAt places s t) (hposix : Posix t)
    (hplaces : ∀ p ∈ places, p <+: fsPath dest ++ k) : Filling dest entries t := by
  have hnew : ∀ q, t.get (fsPath dest ++ q) = s.get (fsPath dest ++ q)
      ∨ q <+: k ∧ t.get (fsPath dest ++ q) = some .dir := by
    intro q
    refine (hgrown (fsPath dest ++ q)).imp_right fun hq => ⟨?_, hq.2.2.2⟩
    rw [← List.prefix_append_right_inj (fsPath dest)]
    exact hplaces _ hq.1
  refine ⟨⟨hposix, hgrown.grown.isDir h.kept.2⟩, fun q f hq => ?_, fun q hne hq => ?_⟩
  · rcases hnew q with heq | ⟨_, hdir⟩
    · refine h.files q f ?_
      rw [FileTree.fileAt, ← heq]
      exact hq
    · rw [FileTree.fileAt, hdir] at hq
      cases hq
  · rcases hnew q with heq | ⟨hway, _⟩
    · exact h.dirs q hne (isDir_congr heq ▸ hq)
    · rcases hk with rfl | ⟨a, ha, hka, hafile⟩
      · exact absurd (List.prefix_nil.mp hway) hne
      · refine ⟨a, ha, hway.trans hka, fun hfile heq => hafile hfile ?_⟩
        exact hka.eq_of_length_le (heq ▸ hway.length_le)

/-! ## The passes -/

/-- `mkdir -p` succeeds where no file is in the way. -/
theorem createDirectoryRecursive_undisturbed {path : Bytes} (hs : Posix s) (hne : path ≠ [])
    (hshort : path.length < pathMax) (hfree : ∀ d ∈ wayTo path, s.fileAt (fsPath d) = none) :
    Safe (fsDevice newMode) undisturbed
      (fun ok t => ok = true ∧ WayMade path s t ∧ GrownAt ((wayTo path).map fsPath) s t)
      (createDirectoryRecursive path) s := by
  have hmade : Safe (fsDevice newMode) nothingFails (fun ok t => ok = true ∧ WayMade path s t)
      (createDirectoryRecursive path) s := createDirectoryRecursive_made hs hne hshort hfree
  have honly : (createDirectoryRecursive path).Only fun o => ∃ d, o = .mkdir d :=
    createDirectoryRecursive_each fun d _ => ⟨d, rfl⟩
  have hcalls : Calls (fsDevice newMode) (fun e => e.ok = true)
      (fun o t => ∀ p, o = .remove p → t.get (fsPath p) = none) (createDirectoryRecursive path) s := by
    refine honly.calls (fun o t ho p hp => ?_) s
    obtain ⟨d, rfl⟩ := ho
    cases hp
  have hends := (hcalls.and_ends hmade fun _ he => he).and_ends (createDirectoryRecursive_madeWay path s)
    fun _ _ => trivial
  exact hends.mono fun ok t ht => ⟨ht.1.2.1, ht.1.2.2, ht.2.1⟩

/-- `mkdir -p` of a directory of the archive succeeds. -/
theorem Filling.mkdir (h : Filling dest entries s) (hclean : CleanArchive dest entries) {k : List Bytes}
    (hk : DirOf entries k) {path : Bytes} (hpath : fsPath path = fsPath dest ++ k) (hdown : NoDotDot isPathSep path)
    (hne : path ≠ []) (hshort : path.length < pathMax) :
    Safe (fsDevice newMode) undisturbed
      (fun ok t => ok = true ∧ Filling dest entries t ∧ t.isDir (fsPath path) = true)
      (createDirectoryRecursive path) s := by
  have hplaces : ∀ p ∈ (wayTo path).map fsPath, p <+: fsPath dest ++ k := by
    intro p hp
    obtain ⟨d, hd, rfl⟩ := List.mem_map.mp hp
    exact hpath ▸ Copy.wayTo_noDotDot hdown d hd
  have hfree : ∀ d ∈ wayTo path, s.fileAt (fsPath d) = none := fun d hd =>
    h.free hclean hk (hplaces _ (List.mem_map_of_mem hd))
  refine (createDirectoryRecursive_undisturbed h.kept.1 hne hshort hfree).mono ?_
  rintro ok t ⟨hok, hway, hgrown⟩
  exact ⟨hok, h.grow hk hgrown hway.posix hplaces, hway.dirs path (Copy.mem_wayTo_self path)⟩

theorem stepChmod_get {path : Bytes} {mode : Nat} {out : FsOutcome} {q : List Bytes} (hq : q ≠ fsPath path) :
    (stepChmod path mode out t).2.get q = t.get q := by
  unfold stepChmod
  split
  · split
    · rfl
    split
    · rw [FileTree.get_set, if_neg hq]
    · rfl
  · rfl

theorem stepChmod_isSome {path : Bytes} {mode : Nat} {out : FsOutcome} (h : (t.fileAt (fsPath path)).isSome) :
    ((stepChmod path mode out t).2.fileAt (fsPath path)).isSome := by
  unfold stepChmod
  split
  · split
    · exact h
    split
    · next f hf =>
      rw [FileTree.fileAt, FileTree.get_set, if_pos rfl]
      rfl
    · exact h
  · exact h

/-- Setting the mode of a directory changes nothing. -/
theorem stepChmod_dir {path : Bytes} {mode : Nat} {out : FsOutcome} (h : t.isDir (fsPath path) = true) :
    (stepChmod path mode out t).2 = t := by
  unfold stepChmod
  rw [if_pos h]
  split <;> rfl

/-- The pass for a directory. -/
theorem Filling.extractDir (h : Filling dest entries s) (hclean : CleanArchive dest entries)
    (hdest : NoDotDot isAnySep dest) (he : e ∈ entries) (hdir : e.isDir = true) :
    Safe (fsDevice newMode) undisturbed (fun ok t => ok = true ∧ Filling dest entries t)
      (extractDir e (fullPathOf dest e)) s := by
  obtain ⟨_, hsafe, hshort, _⟩ := entryPath_isSome (hclean.accepted e he)
  have hkey : fsPath (stripTrailingSeps (fullPathOf dest e)) = fsPath dest ++ relKey e := by
    rw [← putKey_eq dest hsafe, putKey, if_pos hdir]
    rfl
  have hpath : stripTrailingSeps (fullPathOf dest e) = dest ++ ch '/' :: stripTrailingSeps e.filename :=
    stripTrailingSeps_join hsafe.starts
  have hplain : NoDotDot isPathSep (stripTrailingSeps (fullPathOf dest e)) := by
    rw [hpath]
    exact ((noDotDot_join_iff (by decide)).mpr ⟨hdest, hsafe.strip⟩).slash
  have hlen : (stripTrailingSeps (fullPathOf dest e)).length < pathMax := by
    obtain ⟨seps, heq, _⟩ := stripTrailingSeps_append (fullPathOf dest e)
    have hle := congrArg List.length heq
    rw [List.length_append] at hle
    omega
  have hk : DirOf entries (relKey e) :=
    Or.inr ⟨e, he, List.prefix_refl _, fun hfile => by rw [hdir] at hfile; cases hfile⟩
  unfold LibUpdate.extractDir
  refine Safe.bind ((h.mkdir hclean hk hkey hplain (by rw [hpath]; simp) hlen).mono ?_)
  rintro ok t ⟨rfl, hfilling, hisDir⟩
  rw [if_pos rfl]
  unfold chmodEntry
  split
  · refine Safe.perform fun out r u _ hstep => ⟨(fun _ hp => by cases hp), trivial, rfl, ?_⟩
    have hu : u = t := (congrArg Prod.snd hstep).symm.trans (stepChmod_dir hisDir)
    exact hu ▸ hfilling
  · exact ⟨rfl, hfilling⟩

/-- Nothing is at or below the temporary path of a file. -/
theorem Filling.tmpFree (h : Filling dest entries s) (hclean : CleanArchive dest entries) (he : e ∈ entries)
    (hfile : e.isDir = false) (hsafe : NameSafe e.filename) {p : List Bytes} (hp : tmpKey dest e <+: p) :
    s.get p = none := by
  obtain ⟨r, rfl⟩ := hp
  rw [tmpKey_names dest hsafe, List.append_assoc]
  cases hget : s.get (fsPath dest ++ (relTmp e ++ r)) with
  | none => rfl
  | some n =>
      exfalso
      have hbelow : relTmp e <+: relTmp e ++ r := List.prefix_append _ r
      cases n with
      | file f =>
          have hthere : s.fileAt (fsPath dest ++ (relTmp e ++ r)) = some f := by
            rw [FileTree.fileAt, hget]
          obtain ⟨a, ha, _, hkey⟩ := h.files _ f hthere
          exact hclean.clear a ha e he hfile (hkey ▸ hbelow)
      | dir =>
          have hne : relTmp e ++ r ≠ [] := List.append_ne_nil_of_left_ne_nil (relTmp_ne_nil e) r
          obtain ⟨a, ha, hway, _⟩ := h.dirs _ hne (FileTree.isDir_iff.mpr (Or.inr hget))
          exact hclean.clear a ha e he hfile (hbelow.trans hway)

/-- What a pass has made when its file is written: the temporary file, beside what was there. -/
structure Written (dest : Bytes) (entries : List Entry) (tmp : List Bytes) (s t : Fs) : Prop where
  filling : Filling dest entries s
  posix : Posix t
  same : ∀ q, q ≠ tmp → t.get q = s.get q
  file : (t.fileAt tmp).isSome

/-- Nothing but the file is at the place where it is to be moved to. -/
theorem Filling.canOpen (h : Filling dest entries s) (hclean : CleanArchive dest entries) (he : e ∈ entries)
    (hfile : e.isDir = false) {parent : Bytes} {below : List Bytes} {x : Bytes} (hspot : FileSpot dest e parent below x)
    (hdir : s.isDir (fsPath parent) = true) : LibUpdate.canOpen s (fsPath dest ++ relKey e) = true := by
  refine canOpen_iff.mpr ⟨?_, ?_⟩
  · rw [Bool.eq_false_iff]
    intro hthere
    have hne : relKey e ≠ [] := by
      rw [hspot.key]
      exact List.append_ne_nil_of_right_ne_nil _ (List.cons_ne_nil _ _)
    obtain ⟨a, ha, hway, hafile⟩ := h.dirs _ hne hthere
    obtain ⟨hfilea, heq⟩ := hclean.apart e he a ha hfile hway
    exact hafile hfilea heq
  · rw [hspot.key, ← List.append_assoc, List.dropLast_concat, ← hspot.parent_eq]
    exact hdir

/-- The file is moved into place. -/
theorem Written.moved (h : Written dest entries (tmpKey dest e) s t) (hclean : CleanArchive dest entries)
    (he : e ∈ entries) (hfile : e.isDir = false) {parent : Bytes} {below : List Bytes}
    {x : Bytes} (hspot : FileSpot dest e parent below x) (hdir : s.isDir (fsPath parent) = true) {out : FsOutcome}
    (hout : out.ok = true) :
    (stepRename (fullPathOf dest e ++ extractingSuffix) (fullPathOf dest e) out t).1 = true
      ∧ Filling dest entries (stepRename (fullPathOf dest e ++ extractingSuffix) (fullPathOf dest e) out t).2 := by
  obtain ⟨f, hf⟩ := Option.isSome_iff_exists.mp h.file
  have hsafe := (entryPath_isSome (hclean.accepted e he)).2.1
  have hfull : fsPath (fullPathOf dest e) = fsPath dest ++ relKey e := by
    rw [← putKey_eq dest hsafe, putKey, if_neg (by rw [hfile]; exact Bool.false_ne_true)]
    rfl
  have htmp := tmpKey_names dest hsafe
  have hclear := hclean.clear e he e he hfile
  -- the temporary path is none of those on the way to the file
  have hother : ∀ q, q <+: relKey e → fsPath dest ++ q ≠ tmpKey dest e := by
    intro q hq heq
    rw [htmp, List.append_cancel_left_eq] at heq
    exact hclear (heq ▸ hq)
  have hopen : LibUpdate.canOpen t (fsPath dest ++ relKey e) = true := by
    have hold := canOpen_iff.mp (h.filling.canOpen hclean he hfile hspot hdir)
    have hparent : (fsPath dest ++ relKey e).dropLast = fsPath dest ++ below := by
      rw [hspot.key, ← List.append_assoc, List.dropLast_concat]
    have hbelow : below <+: relKey e := hspot.key ▸ List.prefix_append below [x]
    refine canOpen_iff.mpr ⟨?_, ?_⟩
    · rw [isDir_congr (h.same _ (hother _ (List.prefix_refl _)))]
      exact hold.1
    · rw [hparent, isDir_congr (h.same _ (hother _ hbelow)), ← hparent]
      exact hold.2
  have hstep : stepRename (fullPathOf dest e ++ extractingSuffix) (fullPathOf dest e) out t
      = (true, (t.removeUnder (tmpKey dest e)).set (fsPath dest ++ relKey e) (.file f)) := by
    unfold stepRename
    rw [hfull, show fsPath (fullPathOf dest e ++ extractingSuffix) = tmpKey dest e from rfl, hf]
    simp [hopen, hout]
  have hposix : Posix ((fsDevice 0).step (.move (fullPathOf dest e ++ extractingSuffix) (fullPathOf dest e)) out t).2 :=
    step_posix h.posix
  have hposix : Posix (stepRename (fullPathOf dest e ++ extractingSuffix) (fullPathOf dest e) out t).2 := hposix
  rw [hstep] at hposix ⊢
  have hget : ∀ q, ((t.removeUnder (tmpKey dest e)).set (fsPath dest ++ relKey e) (.file f)).get (fsPath dest ++ q)
      = if q = relKey e then some (.file f) else s.get (fsPath dest ++ q) := by
    intro q
    by_cases hself : q = relKey e
    · rw [hself, FileTree.get_set, if_pos rfl, if_pos rfl]
    rw [FileTree.get_set, if_neg fun heq => hself (List.append_cancel_left heq), if_neg hself,
      FileTree.get_removeUnder]
    split
    · next hbelow => exact (h.filling.tmpFree hclean he hfile hsafe hbelow).symm
    · next hbelow => exact h.same _ fun heq => hbelow (heq ▸ List.prefix_refl _)
  refine ⟨rfl, ⟨hposix, ?_⟩, fun q g hq => ?_, fun q hne hq => ?_⟩
  · have hroot := hget []
    rw [if_neg, List.append_nil] at hroot
    · rw [isDir_congr hroot]
      exact h.filling.kept.2
    · rw [hspot.key]
      simp
  · rw [FileTree.fileAt, hget] at hq
    by_cases heq : q = relKey e
    · exact ⟨e, he, hfile, heq.symm⟩
    · rw [if_neg heq] at hq
      exact h.filling.files q g hq
  · rw [FileTree.isDir_iff, hget] at hq
    by_cases heq : q = relKey e
    · rw [if_pos heq] at hq
      rcases hq with hroot | hq
      · exact absurd (List.append_eq_nil_iff.mp hroot).2 hne
      · cases hq
    · rw [if_neg heq] at hq
      exact h.filling.dirs q hne (FileTree.isDir_iff.mpr hq)

/-- The directories above a file are made. -/
theorem Filling.ensureParentDirs (h : Filling dest entries s) (hclean : CleanArchive dest entries) (he : e ∈ entries)
    {parent : Bytes} {below : List Bytes} {x : Bytes} (hspot : FileSpot dest e parent below x) :
    Safe (fsDevice newMode) undisturbed
      (fun ok t => ok = true ∧ Filling dest entries t ∧ t.isDir (fsPath parent) = true)
      (ensureParentDirs (fullPathOf dest e)) s := by
  have hshort := (entryPath_isSome (hclean.accepted e he)).2.2.1
  unfold LibUpdate.ensureParentDirs
  rw [if_neg (by omega), hspot.full, beforeLastSlash_join hspot.plain]
  show Safe _ _ _ (if parent = [] then pure true else createDirectoryRecursive parent) s
  split
  · next hroot =>
    subst hroot
    exact ⟨rfl, h, FileTree.isDir_iff.mpr (Or.inl rfl)⟩
  · next hne =>
    have hk : DirOf entries below := by
      refine Or.inr ⟨e, he, hspot.key ▸ List.prefix_append below [x], fun _ heq => ?_⟩
      have hlen := congrArg List.length (heq.trans hspot.key)
      rw [List.length_append, List.length_singleton] at hlen
      omega
    refine h.mkdir hclean hk hspot.parent_eq hspot.down hne ?_
    rw [hspot.full, List.length_append] at hshort
    omega

/-- The file is written beside its place, and moved there. -/
theorem Filling.writeEntry (h : Filling dest entries s) (hclean : CleanArchive dest entries) (he : e ∈ entries)
    (hfile : e.isDir = false) {parent : Bytes} {below : List Bytes} {x : Bytes} (hspot : FileSpot dest e parent below x)
    (hdir : s.isDir (fsPath parent) = true) :
    Safe (fsDevice newMode) undisturbed (fun ok t => ok = true ∧ Filling dest entries t)
      (writeEntry e (fullPathOf dest e) (fullPathOf dest e ++ extractingSuffix)) s := by
  have htmp : tmpKey dest e = fsPath parent ++ [x ++ extractingSuffix] := by
    rw [hspot.tmp, hspot.parent_eq, List.append_assoc]
  have hsafe := (entryPath_isSome (hclean.accepted e he)).2.1
  have hwritable : LibUpdate.canOpen s (tmpKey dest e) = true := by
    refine canOpen_iff.mpr ⟨?_, ?_⟩
    · rw [Bool.eq_false_iff, ne_eq, FileTree.isDir_iff, h.tmpFree hclean he hfile hsafe (List.prefix_refl _), htmp]
      rintro (hroot | hsome)
      · exact absurd hroot (List.append_ne_nil_of_right_ne_nil _ (List.cons_ne_nil _ _))
      · cases hsome
    · rw [htmp, List.dropLast_concat]
      exact hdir
  unfold LibUpdate.writeEntry
  refine Safe.perform fun out r t hout hstep => ⟨(fun _ hp => by cases hp), trivial, ?_⟩
  have hwritten : stepExtractTo newMode e.data (fullPathOf dest e ++ extractingSuffix) out s
      = (true, writeFile newMode s (tmpKey dest e) e.data) := by
    unfold stepExtractTo
    have hout : out.ok = true := hout
    rw [show fsPath (fullPathOf dest e ++ extractingSuffix) = tmpKey dest e from rfl, if_pos hwritable, if_pos hout]
  obtain ⟨rfl, rfl⟩ : r = true ∧ t = writeFile newMode s (tmpKey dest e) e.data := by
    have hstep : stepExtractTo newMode e.data (fullPathOf dest e ++ extractingSuffix) out s = (r, t) := hstep
    rw [hwritten] at hstep
    exact ⟨(congrArg Prod.fst hstep).symm, (congrArg Prod.snd hstep).symm⟩
  have hposix : Posix (writeFile newMode s (tmpKey dest e) e.data) := by
    have hkept : Posix ((fsDevice newMode).step (.extractTo e.data (fullPathOf dest e ++ extractingSuffix)) out s).2 :=
      step_posix h.kept.1
    rw [hstep] at hkept
    exact hkept
  have hdone : Written dest entries (tmpKey dest e) s (writeFile newMode s (tmpKey dest e) e.data) := by
    refine ⟨h, hposix, fun q hq => writeFile_frame hq, ?_⟩
    rw [FileTree.fileAt, writeFile, FileTree.get_set, if_pos rfl]
    rfl
  have hmove : ∀ {t}, Written dest entries (tmpKey dest e) s t →
      Safe (fsDevice newMode) undisturbed (fun ok t => ok = true ∧ Filling dest entries t) (do
        let moved ← Prog.perform (.move (fullPathOf dest e ++ extractingSuffix) (fullPathOf dest e))
        if moved then pure true else dropTmp (fullPathOf dest e ++ extractingSuffix)) t := by
    intro t ht
    refine Safe.perform fun out r u hout hstep => ⟨(fun _ hp => by cases hp), trivial, ?_⟩
    obtain ⟨hmoved, hfilling⟩ := ht.moved hclean he hfile hspot hdir hout
    obtain rfl : r = true := (congrArg Prod.fst hstep).symm.trans hmoved
    have hu : u = (stepRename (fullPathOf dest e ++ extractingSuffix) (fullPathOf dest e) out t).2 :=
      (congrArg Prod.snd hstep).symm
    exact ⟨rfl, hu ▸ hfilling⟩
  rw [if_pos rfl]
  unfold chmodEntry
  split
  · refine Safe.perform fun out r u _ hstep => ⟨(fun _ hp => by cases hp), trivial, ?_⟩
    have hu : u = (stepChmod (fullPathOf dest e ++ extractingSuffix) (entryMode e) out
        (writeFile newMode s (tmpKey dest e) e.data)).2 := (congrArg Prod.snd hstep).symm
    refine hmove ⟨h, ?_, fun q hq => ?_, ?_⟩
    · have hkept : Posix ((fsDevice newMode).step (.chmod (fullPathOf dest e ++ extractingSuffix) (entryMode e)) out
          (writeFile newMode s (tmpKey dest e) e.data)).2 := step_posix hposix
      rw [hstep] at hkept
      exact hkept
    · rw [hu, stepChmod_get hq]
      exact writeFile_frame hq
    · rw [hu]
      exact stepChmod_isSome hdone.file
  · exact hmove hdone

/-- **The pass for an entry succeeds.** -/
theorem Filling.extractEntry (h : Filling dest entries s) (hclean : CleanArchive dest entries)
    (hdest : NoDotDot isAnySep dest) (he : e ∈ entries) :
    Safe (fsDevice newMode) undisturbed (fun ok t => ok = true ∧ Filling dest entries t) (extractEntry dest e) s := by
  obtain ⟨hpath, hsafe, hshort, _⟩ := entryPath_isSome (hclean.accepted e he)
  unfold LibUpdate.extractEntry
  rw [hpath]
  show Safe _ _ _ (if e.isDir then LibUpdate.extractDir e (fullPathOf dest e)
    else extractFile e (fullPathOf dest e)) s
  cases hdir : e.isDir with
  | true =>
      rw [if_pos rfl]
      exact h.extractDir hclean hdest he hdir
  | false =>
      rw [if_neg Bool.false_ne_true]
      obtain ⟨parent, below, x, hspot⟩ := exists_fileSpot hdest (hclean.accepted e he) hdir (hclean.named e he hdir)
      have hfree := h.tmpFree hclean he hdir hsafe (List.prefix_refl _)
      have hbuf : snprintf (pathMax + 32) (fullPathOf dest e ++ extractingSuffix)
          = some (fullPathOf dest e ++ extractingSuffix) := by
        have hlong : extractingSuffix.length = 11 := by
          decide +kernel
        refine snprintf_eq_some.mpr ⟨?_, rfl⟩
        rw [List.length_append, hlong]
        omega
      unfold extractFile
      rw [hbuf]
      -- there is nothing to remove
      refine Safe.perform fun out r t _ hstep => ⟨fun p hp => ?_, trivial, ?_⟩
      · cases hp
        exact hfree
      have ht : t = s := by
        have hremoved : (stepRemove (fullPathOf dest e ++ extractingSuffix) out s).2 = s := by
          unfold stepRemove
          rw [if_pos (by rw [show fsPath (fullPathOf dest e ++ extractingSuffix) = tmpKey dest e from rfl, hfree]; rfl)]
        exact (congrArg Prod.snd hstep).symm.trans hremoved
      rw [ht]
      refine Safe.bind ((h.ensureParentDirs hclean he hspot).mono ?_)
      rintro ok u ⟨rfl, hfilling, hisDir⟩
      rw [if_pos rfl]
      exact hfilling.writeEntry hclean he hdir hspot hisDir

theorem Filling.extractEntries {es : List Entry} (h : Filling dest entries s) (hclean : CleanArchive dest entries)
    (hdest : NoDotDot isAnySep dest) (hes : ∀ e ∈ es, e ∈ entries) :
    Safe (fsDevice newMode) undisturbed (fun status _ => status = .ok) (extractEntries dest es) s := by
  induction es generalizing s with
  | nil => rfl
  | cons e es ih =>
      obtain ⟨he, hes⟩ := List.forall_mem_cons.mp hes
      unfold LibUpdate.extractEntries
      refine Safe.bind ((h.extractEntry hclean hdest he).mono ?_)
      rintro ok t ⟨rfl, ht⟩
      exact ih ht hes

theorem extractDest_pathOk {cwd : Option Bytes} {zipPath destDir : Bytes}
    (h : extractDest cwd zipPath destDir = some dest) : PathOk dest := by
  unfold extractDest at h
  split at h; · cases h
  split at h; · cases h
  split at h
  · split at h
    · cases h
    · next hvalid =>
      cases h
      simp only [Bool.or_eq_true, decide_eq_true_eq, not_or, Decidable.not_not] at hvalid
      exact (updateValidatePath_eq_ok.mp hvalid.2).1
  · cases h

/-- **Where nothing fails, a clean archive is extracted** into an empty destination, made if it is not there. -/
theorem updateExtract_clean {cwd : Option Bytes} {zipPath destDir : Bytes}
    (hdest : extractDest cwd zipPath destDir = some dest) (hclean : CleanArchive dest entries) (hs : Posix s)
    (hway : ∀ q, q <+: fsPath dest → s.fileAt q = none) (hempty : ∀ q, q ≠ [] → s.get (fsPath dest ++ q) = none) :
    Safe (fsDevice newMode) undisturbed (fun status _ => status = .ok)
      (updateExtract cwd (some entries) zipPath destDir) s := by
  have hdown := extractDest_noDotDot hdest
  have hok := extractDest_pathOk hdest
  have hfree : ∀ d ∈ wayTo dest, s.fileAt (fsPath d) = none := fun d hd =>
    hway _ (Copy.wayTo_noDotDot hdown.slash d hd)
  have hall : Safe (fsDevice newMode) undisturbed (fun ok t => ok = true ∧ Filling dest entries t)
      (createDirectoryRecursive dest) s := by
    refine (createDirectoryRecursive_undisturbed hs hok.nonempty hok.short hfree).mono ?_
    rintro ok t ⟨hok, hmade, hgrown⟩
    have hnone : ∀ q, q ≠ [] → t.get (fsPath dest ++ q) = none := fun q hq =>
      (hgrown.get_inside hdown hq).trans (hempty q hq)
    refine ⟨hok, ⟨hmade.posix, hmade.dirs dest (Copy.mem_wayTo_self dest)⟩, fun q f hf => ?_, fun q hq hdir => ?_⟩
    · by_cases hq : q = []
      · have hdir := hmade.dirs dest (Copy.mem_wayTo_self dest)
        rw [hq, List.append_nil] at hf
        rw [hmade.posix.tree.isDir_of_fileAt hf] at hdir
        cases hdir
      · rw [FileTree.fileAt, hnone q hq] at hf
        cases hf
    · rcases FileTree.isDir_iff.mp hdir with hroot | hsome
      · exact absurd (List.append_eq_nil_iff.mp hroot).2 hq
      · rw [hnone q hq] at hsome
        cases hsome
  unfold updateExtract
  rw [hdest]
  refine Safe.bind (hall.mono ?_)
  rintro ok t ⟨rfl, hfilling⟩
  exact hfilling.extractEntries hclean hdown fun _ he => he

/-- **An extraction, operation by operation.** Cut off after any of its operations, each failing or not, `update_extract`
    has changed nothing outside its destination, and has made nothing in it but for the entries. Where it succeeds, the
    entries, with the directories on their way, have been laid over what was there one after the other, each file in
    the place of whatever was at its own path and at its temporary one. And where no operation fails, a clean archive
    is extracted into an empty destination, and what is there then is the archive's. -/
theorem updateExtract_exact (newMode : Nat) (cwd : Option Bytes) (archive : Option (List Entry))
    (zipPath destDir dest : Bytes) (hdest : extractDest cwd zipPath destDir = some dest) (s : Volume) :
    (∀ es : List FsOutcome,
        let run := (fsDevice newMode).run (updateExtract cwd archive zipPath destDir) es s.1
        Unpacking dest archive s.1 run.final
          ∧ (run.result = some .ok → ∃ entries, archive = some entries ∧ Unpacked dest entries s.1 run.final))
      ∧ ∀ entries, archive = some entries → CleanArchive dest entries →
        (∀ q, q <+: fsPath dest → s.1.fileAt q = none) → (∀ q, q ≠ [] → s.1.get (fsPath dest ++ q) = none) →
        ∀ turns : Nat → FsOutcome, (∀ i, (turns i).ok = true) →
          ∃ n, ∀ m, n ≤ m →
            let run := (fsDevice newMode).run (updateExtract cwd archive zipPath destDir) ((List.range m).map turns) s.1
            run.result = some .ok
              ∧ ∀ q, q ≠ [] → shownAt run.final (fsPath dest ++ q) = (layEntries entries []).get q := by
  have hsafe : Safe (fsDevice newMode) (crashContract (fsDevice newMode) (fun _ => True) (Unpacking dest archive s.1))
      (fun status t => Unpacking dest archive s.1 t
        ∧ (status = .error ∨ status = .ok ∧ ∃ entries, archive = some entries ∧ Unpacked dest entries s.1 t))
      (updateExtract cwd archive zipPath destDir) s.1 := updateExtract_unpacks hdest archive s.2
  have hruns : ∀ es : List FsOutcome, Unpacking dest archive s.1
        ((fsDevice newMode).run (updateExtract cwd archive zipPath destDir) es s.1).final
      ∧ (((fsDevice newMode).run (updateExtract cwd archive zipPath destDir) es s.1).result = some .ok →
        ∃ entries, archive = some entries
          ∧ Unpacked dest entries s.1 ((fsDevice newMode).run (updateExtract cwd archive zipPath destDir) es s.1).final) := by
    intro es
    refine ⟨hsafe.final_sound ⟨s.2, .refl _ _, Or.inr fun _ _ => rfl, .refl _ _ _⟩ fun _ _ => trivial, fun hr => ?_⟩
    rcases ((hsafe.run_sound fun _ _ => trivial).2 _ hr).2 with herror | ⟨_, hdone⟩
    · cases herror
    · exact hdone
  refine ⟨hruns, ?_⟩
  rintro entries rfl hclean hway hempty turns hturns
  obtain ⟨n, hn⟩ := (fsDevice newMode).run_returns (updateExtract cwd (some entries) zipPath destDir) turns s.1
  refine ⟨n, fun m hm => ?_⟩
  obtain ⟨status, hr⟩ := Option.isSome_iff_exists.mp (hn m hm)
  have hfine : ∀ ev ∈ ((fsDevice newMode).run (updateExtract cwd (some entries) zipPath destDir)
      ((List.range m).map turns) s.1).events, ev.outcome.ok = true := by
    intro ev hev
    obtain ⟨i, _, hi⟩ := List.mem_map.mp ((fsDevice newMode).outcome_mem hev)
    rw [← hi]
    exact hturns i
  obtain rfl := ((updateExtract_clean hdest hclean s.2 hway hempty).run_sound hfine).2 _ hr
  obtain ⟨entries', heq, hdone⟩ := (hruns _).2 hr
  obtain rfl := Option.some.inj heq
  refine ⟨hr, fun q hq => ?_⟩
  -- nothing was there before
  rw [hdone.laid q hq]
  refine get_layEntries_congr ?_
  rw [get_viewAt, if_neg hq, shownAt, hempty q hq]
  rfl

/-- A package with a file in a directory. -/
def nestedArchive : List Entry := [⟨true, 0, ascii "bin/app", false, 0, ascii "2"⟩]

theorem updateExtract_exact_sample :
    ∃ n, ∀ m, n ≤ m → ((fsDevice 420).run (updateExtract none (some nestedArchive) (ascii "/p.zip") (ascii "/s"))
      ((List.range m).map fun _ => okOutcome) Volume.empty.1).result = some .ok := by
  have hclean : CleanArchive (ascii "/s") nestedArchive :=
    ⟨by decide +kernel, by decide +kernel, by decide +kernel, by decide +kernel⟩
  obtain ⟨n, hn⟩ := (updateExtract_exact 420 none (some nestedArchive) (ascii "/p.zip") (ascii "/s") (ascii "/s")
    (by decide +kernel) Volume.empty).2 nestedArchive rfl hclean (fun _ _ => rfl) (fun _ _ => rfl) (fun _ => okOutcome)
    fun _ => rfl
  exact ⟨n, fun m hm => (hn m hm).1⟩

end LibUpdate
