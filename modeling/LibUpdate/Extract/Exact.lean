import LibUpdate.Copy.Complete
import LibUpdate.Extract.Complete
import LibUpdate.Extract.Containment
import LibUpdate.Foundation.Graft
import LibUpdate.Foundation.Refinement

/-!
# `Extract.Exact` — the tree that an extraction leaves

`Extract.Complete` tells the content at each path. Here the whole tree is told, directories included: each entry
lays its file, or its directory, and the directories on the way over what was there, less what a file finds at its
temporary path (`layEntry`); and an extraction that succeeds has laid all of them, in order (`updateExtract_exact`).
-/

namespace LibUpdate

/-! ## Trees of entries -/

/-- What is at a path: a directory, or a file with its content. -/
def shownAt (t : Fs) (p : List Bytes) : Option (Node Bytes) := (t.get p).map (Node.map FileNode.data)

/-- What a directory holds, by the names that lead down from it: the tree that `Updater.Main` has in its place. -/
def viewAt (t : Fs) (p : List Bytes) : FileTree Bytes Bytes := ((t.cut p).prune List.isEmpty).mapData FileNode.data

theorem get_viewAt (t : Fs) (p q : List Bytes) :
    (viewAt t p).get q = if q = [] then none else shownAt t (p ++ q) := by
  rw [viewAt, FileTree.get_mapData, FileTree.get_prune, FileTree.get_cut]
  simp only [List.isEmpty_iff]
  split <;> rfl

theorem viewAt_congr {s t : Fs} {p p' q : List Bytes} (h : t.get (p' ++ q) = s.get (p ++ q)) :
    (viewAt t p').get q = (viewAt s p).get q := by
  rw [get_viewAt, get_viewAt, shownAt, shownAt, h]

/-- The names that lead to an entry from the destination. -/
def relKey (e : Entry) : List Bytes :=
  names isPathSep (if e.isDir then stripTrailingSeps e.filename else e.filename)

/-- The names that lead to the temporary file of an entry. -/
def relTmp (e : Entry) : List Bytes := names isPathSep (e.filename ++ extractingSuffix)

/-- What an entry takes away: a file is written at its temporary path, and what is found there is removed first. -/
def Entry.clears (e : Entry) (q : List Bytes) : Bool := !e.isDir && (relTmp e).isPrefixOf q

/-- An entry and the directories on the way to it. -/
def entryNodes (e : Entry) : FileTree Bytes Bytes :=
  (relKey e, if e.isDir then .dir else .file e.data)
    :: ((List.range (relKey e).length).drop 1).map fun i => ((relKey e).take i, .dir)

/-- One entry laid over a tree. -/
def layEntry (t : FileTree Bytes Bytes) (e : Entry) : FileTree Bytes Bytes := (entryNodes e).overlay (t.prune e.clears)

/-- The entries laid over a tree, one after the other: what `update_extract` makes of a destination that it finds
    with this tree in it. -/
def layEntries (entries : List Entry) (t : FileTree Bytes Bytes) : FileTree Bytes Bytes := entries.foldl layEntry t

/-- What a package installs: its entries laid over nothing. The package of a world is this tree. -/
def packageOf (entries : List Entry) : FileTree Bytes Bytes := (layEntries entries []).prune List.isEmpty

/-- The temporary paths of a package. What an earlier run has left at or below them does not outlive an extraction.
    -/
def tempsOf (entries : List Entry) : List (List Bytes) := (entries.filter (!·.isDir)).map relTmp

theorem get_entryNodes (e : Entry) (q : List Bytes) :
    (entryNodes e).get q
      = if q = relKey e then some (if e.isDir then .dir else .file e.data)
        else if q ≠ [] ∧ q <+: relKey e then some .dir else none := by
  have hdirs : ∀ is : List Nat, (∀ i ∈ is, i < (relKey e).length) →
      FileTree.get (is.map fun i => ((relKey e).take i, (.dir : Node Bytes))) q
        = if q <+: relKey e ∧ q.length ∈ is then some .dir else none := by
    intro is his
    induction is with
    | nil => simp
    | cons i is ih =>
        obtain ⟨hi, his⟩ := List.forall_mem_cons.mp his
        rw [List.map_cons, FileTree.get_cons, ih his]
        by_cases hq : q = (relKey e).take i
        · have hlen : q.length = i := by
            rw [hq, List.length_take]
            omega
          rw [if_pos hq, if_pos ⟨hq ▸ List.take_prefix i _, by rw [hlen]; exact List.mem_cons_self⟩]
        · rw [if_neg hq]
          refine if_congr ?_ rfl rfl
          refine and_congr_right fun hbelow => ?_
          rw [List.mem_cons, or_iff_right]
          intro hlen
          exact hq (hlen ▸ List.prefix_iff_eq_take.mp hbelow)
  unfold entryNodes
  rw [FileTree.get_cons]
  split
  · rfl
  · next hne =>
    rw [hdirs _ fun i hi => List.mem_range.mp (List.mem_of_mem_drop hi)]
    refine if_congr ?_ rfl rfl
    rw [and_comm]
    refine and_congr_left fun hbelow => ?_
    have hshort : q.length < (relKey e).length := by
      refine Nat.lt_of_le_of_ne hbelow.length_le fun hlen => hne ?_
      exact hbelow.eq_of_length hlen
    constructor
    · rintro hmem rfl
      obtain ⟨k, hk, hget⟩ := List.mem_iff_getElem.mp hmem
      rw [List.getElem_drop, List.getElem_range, List.length_nil] at hget
      omega
    · intro hnil
      have hpos : 0 < q.length := List.length_pos_iff.mpr hnil
      refine List.mem_iff_getElem.mpr ⟨q.length - 1, ?_, ?_⟩
      · rw [List.length_drop, List.length_range]
        omega
      · rw [List.getElem_drop, List.getElem_range]
        omega

theorem layEntries_cons (e : Entry) (entries : List Entry) (t : FileTree Bytes Bytes) :
    layEntries (e :: entries) t = layEntries entries (layEntry t e) := rfl

theorem get_layEntry (t : FileTree Bytes Bytes) (e : Entry) (q : List Bytes) :
    (layEntry t e).get q = ((entryNodes e).get q).or (if e.clears q then none else t.get q) := by
  rw [layEntry, FileTree.get_overlay, FileTree.get_prune]

/-- What the entries say of a path comes before what was there, and at a temporary path nothing stays that was. -/
theorem get_layEntries (entries : List Entry) (t : FileTree Bytes Bytes) (q : List Bytes) :
    (layEntries entries t).get q
      = ((layEntries entries []).get q).or (if entries.any (·.clears q) then none else t.get q) := by
  induction entries generalizing t with
  | nil => rfl
  | cons e entries ih =>
      have hnil : (layEntry [] e).get q = (entryNodes e).get q := by
        rw [get_layEntry, FileTree.get_nil, ite_self, Option.or_none]
      rw [layEntries_cons, layEntries_cons, ih, ih (layEntry [] e), hnil, List.any_cons, get_layEntry]
      cases entries.any (·.clears q) with
      | true => simp
      | false => simp [Option.or_assoc]

/-- Only what was at the path matters. -/
theorem get_layEntries_congr {entries : List Entry} {t u : FileTree Bytes Bytes} {q : List Bytes}
    (h : t.get q = u.get q) : (layEntries entries t).get q = (layEntries entries u).get q := by
  rw [get_layEntries, get_layEntries entries u, h]

/-- What a package is laid over loses what is at its temporary paths. -/
theorem any_tempsOf (entries : List Entry) (q : List Bytes) :
    (tempsOf entries).any (·.isPrefixOf q) = entries.any (·.clears q) := by
  rw [tempsOf, List.any_map, List.any_filter]
  rfl

/-! ## Where the entries lie -/

variable {newMode : Nat} {dest : Bytes} {e : Entry} {s t u : Fs}

theorem NameSafe.strip (h : NameSafe e.filename) : NoDotDot isAnySep (stripTrailingSeps e.filename) := by
  obtain ⟨seps, hname, hseps⟩ := stripTrailingSeps_append e.filename
  cases seps with
  | nil =>
      rw [List.append_nil] at hname
      rw [← hname]
      exact h.down
  | cons c seps =>
      have hdown := h.down
      rw [hname, noDotDot_join_iff (hseps c List.mem_cons_self)] at hdown
      exact hdown.1

/-- Where an entry is put. -/
def putKey (dest : Bytes) (e : Entry) : List Bytes := if e.isDir then dirKey dest e else entryKey dest e

theorem putKey_eq (dest : Bytes) {e : Entry} (h : NameSafe e.filename) : putKey dest e = fsPath dest ++ relKey e := by
  unfold putKey relKey
  split
  · rw [dirKey, fullPathOf, stripTrailingSeps_join h.starts]
    exact resolvePath_join (by decide) h.strip.slash
  · exact resolvePath_join (by decide) h.down.slash

theorem extractingSuffix_plain : (∀ c ∈ extractingSuffix, isPathSep c = false) ∧ 2 < extractingSuffix.length := by
  decide +kernel

theorem tmpKey_names (dest : Bytes) {e : Entry} (h : NameSafe e.filename) :
    tmpKey dest e = fsPath dest ++ relTmp e := by
  obtain ⟨hplain, hlong⟩ := extractingSuffix_plain
  rw [tmpKey, fullPathOf, List.append_assoc, List.cons_append]
  exact resolvePath_join (by decide) (noDotDot_append hplain hlong h.down.slash)

/-- The temporary path has the names of the path but for the last, and then one more. -/
theorem relTmp_eq (e : Entry) : ∃ r seg, e.filename.splitOnP isPathSep = r ++ [seg]
    ∧ relTmp e = (r.filter fun seg => seg ≠ [] && seg ≠ dot) ++ [seg ++ extractingSuffix] := by
  obtain ⟨hplain, hlong⟩ := extractingSuffix_plain
  obtain ⟨first, seg, hsplit, happend, _⟩ := exists_last_segment isPathSep e.filename
  have hlast : seg ++ extractingSuffix ≠ [] ∧ seg ++ extractingSuffix ≠ dot := by
    constructor
    · intro hnil
      have hlen := congrArg List.length hnil
      rw [List.length_append, List.length_nil] at hlen
      omega
    · intro hdot
      have hlen := congrArg List.length hdot
      rw [List.length_append, show dot.length = 1 from rfl] at hlen
      omega
  have hkept : [seg ++ extractingSuffix].filter (fun seg => seg ≠ [] && seg ≠ dot) = [seg ++ extractingSuffix] := by
    rw [List.filter_cons_of_pos, List.filter_nil]
    rw [Bool.and_eq_true, decide_eq_true_eq, decide_eq_true_eq]
    exact hlast
  refine ⟨first, seg, hsplit, ?_⟩
  rw [relTmp, names, happend _ hplain, List.filter_append, hkept]

theorem relTmp_ne_nil (e : Entry) : relTmp e ≠ [] := by
  obtain ⟨r, seg, _, htmp⟩ := relTmp_eq e
  rw [htmp]
  exact List.append_ne_nil_of_right_ne_nil _ (List.cons_ne_nil _ _)

theorem clears_iff {dest : Bytes} {e : Entry} (h : NameSafe e.filename) {q : List Bytes} :
    e.clears q = true ↔ e.isDir = false ∧ tmpKey dest e <+: fsPath dest ++ q := by
  rw [tmpKey_names dest h, List.prefix_append_right_inj, Entry.clears, Bool.and_eq_true, Bool.not_eq_true',
    List.isPrefixOf_iff_prefix]

/-! ## The calls of an extraction -/

/-- The path leads to something in the directory, not to the directory itself. -/
def LeadsInto (dest path : Bytes) : Prop := fsPath dest <+: fsPath path ∧ fsPath path ≠ fsPath dest

/-- A call that an extraction to `dest` makes for an entry that is put at `full`, by way of `tmp`: it makes a
    directory on the way there, or works in the destination. -/
def CallFor (dest : Bytes) (full tmp : List Bytes) : FsOp → Prop
  | .mkdir p => fsPath p <+: full
  | .remove p => LeadsInto dest p
  | .extractTo _ p => fsPath dest <+: fsPath p ∧ fsPath p = tmp
  | .chmod p _ => fsPath dest <+: fsPath p
  | .move p q => LeadsInto dest p ∧ fsPath dest <+: fsPath q ∧ fsPath q = full

theorem mkdirAll_each {P : FsOp → Prop} {dirs : List Bytes} (h : ∀ d ∈ dirs, P (.mkdir d)) :
    (mkdirAll dirs).Only P := by
  induction dirs with
  | nil => exact .ret
  | cons d dirs ih =>
      obtain ⟨hd, hdirs⟩ := List.forall_mem_cons.mp h
      refine .perform hd fun made => ?_
      cases made with
      | true => exact ih hdirs
      | false => exact .ret

theorem createDirectoryRecursive_each {P : FsOp → Prop} {path : Bytes} (h : ∀ d ∈ wayTo path, P (.mkdir d)) :
    (createDirectoryRecursive path).Only P := by
  unfold createDirectoryRecursive
  split; · exact .ret
  split; · exact .ret
  exact mkdirAll_each h

theorem createDirectoryRecursive_only {full tmp : List Bytes} {path : Bytes} (h : NoDotDot isPathSep path)
    (hfull : fsPath path <+: full) : (createDirectoryRecursive path).Only (CallFor dest full tmp) :=
  createDirectoryRecursive_each fun d hd => (Copy.wayTo_noDotDot h d hd).trans hfull

theorem chmodEntry_only {full tmp : List Bytes} {path : Bytes} (h : fsPath dest <+: fsPath path) :
    (chmodEntry e path).Only (CallFor dest full tmp) := by
  unfold chmodEntry
  split
  · exact .perform h fun _ => .ret
  · exact .ret

theorem dropTmp_only {full : List Bytes} {tmp : Bytes} (h : LeadsInto dest tmp) :
    (dropTmp tmp).Only (CallFor dest full (fsPath tmp)) :=
  .perform h fun _ => .ret

theorem writeEntry_only {path tmp : Bytes} (htmp : LeadsInto dest tmp) (hpath : fsPath dest <+: fsPath path) :
    (writeEntry e path tmp).Only (CallFor dest (fsPath path) (fsPath tmp)) := by
  unfold writeEntry
  refine .perform ⟨htmp.1, rfl⟩ fun written => ?_
  cases written with
  | false => exact dropTmp_only htmp
  | true =>
      refine (chmodEntry_only htmp.1).bind fun _ => .perform ⟨htmp, hpath, rfl⟩ fun moved => ?_
      cases moved with
      | true => exact .ret
      | false => exact dropTmp_only htmp

theorem ensureParentDirs_only {path : Bytes} {tmp : List Bytes} (h : NoDotDot isPathSep path) :
    (ensureParentDirs path).Only (CallFor dest (fsPath path) tmp) := by
  unfold ensureParentDirs
  split; · exact .ret
  split; · exact .ret
  next parent hparent =>
  obtain ⟨rest, rfl⟩ := beforeLastSlash_eq hparent
  obtain ⟨hfirst, hrest⟩ := (noDotDot_join_iff (by decide)).mp h
  split; · exact .ret
  refine createDirectoryRecursive_only hfirst ?_
  rw [fsPath, fsPath, resolvePath_join (by decide) hrest]
  exact List.prefix_append _ _

theorem tmp_leadsInto (h : NameSafe e.filename) : LeadsInto dest (fullPathOf dest e ++ extractingSuffix) := by
  have heq : fsPath (fullPathOf dest e ++ extractingSuffix) = fsPath dest ++ relTmp e := tmpKey_names dest h
  rw [LeadsInto, heq]
  refine ⟨List.prefix_append _ _, fun hself => relTmp_ne_nil e ?_⟩
  exact List.append_cancel_left (hself.trans (List.append_nil _).symm)

theorem full_noDotDot (hdest : NoDotDot isAnySep dest) (h : NameSafe e.filename) :
    NoDotDot isPathSep (fullPathOf dest e) :=
  ((noDotDot_join_iff (by decide)).mpr ⟨hdest, h.down⟩).slash

/-- **A pass of the entry loop** works in the destination, and makes no directories but on the way to its entry. -/
theorem extractEntry_only (hdest : NoDotDot isAnySep dest) :
    (extractEntry dest e).Only (CallFor dest (putKey dest e) (tmpKey dest e)) := by
  unfold extractEntry
  split; · exact .ret
  next path hpath =>
  obtain ⟨rfl, hsafe⟩ := entryPath_eq hpath
  have hbelow : fsPath dest <+: putKey dest e := by
    rw [putKey_eq dest hsafe]
    exact List.prefix_append _ _
  split
  · next hdir =>
    have hkey : putKey dest e = fsPath (stripTrailingSeps (fullPathOf dest e)) := by
      rw [putKey, if_pos hdir]
      rfl
    have hplain : NoDotDot isPathSep (stripTrailingSeps (fullPathOf dest e)) := by
      rw [fullPathOf, stripTrailingSeps_join hsafe.starts]
      exact ((noDotDot_join_iff (by decide)).mpr ⟨hdest, hsafe.strip⟩).slash
    unfold extractDir
    refine (createDirectoryRecursive_only hplain (hkey ▸ List.prefix_refl _)).bind fun made => ?_
    cases made with
    | false => exact .ret
    | true => exact (chmodEntry_only (hkey ▸ hbelow)).bind fun _ => .ret
  · next hfile =>
    have hkey : putKey dest e = fsPath (fullPathOf dest e) := by
      rw [putKey, if_neg hfile]
      rfl
    unfold extractFile
    split; · exact .ret
    next tmp htmp =>
    obtain rfl := (snprintf_eq_some.mp htmp).2
    refine .perform (tmp_leadsInto hsafe) fun _ => ?_
    rw [hkey]
    refine (ensureParentDirs_only (full_noDotDot hdest hsafe)).bind fun parents => ?_
    cases parents with
    | false => exact .ret
    | true => exact writeEntry_only (tmp_leadsInto hsafe) (hkey ▸ hbelow)

/-! ## What the calls keep -/

/-- What is kept while an entry is extracted: a file system that can be, with the destination in it, no directories
    but on the way, and nothing new but there and at the temporary path. -/
structure Extracting (dest : Bytes) (full tmp : List Bytes) (s t : Fs) : Prop where
  posix : Posix t
  dest : t.isDir (fsPath dest) = true
  dirs : ∀ q, t.isDir q = true → s.isDir q = true ∨ q <+: full
  nodes : ∀ q, (t.get q).isSome → (s.get q).isSome ∨ q <+: full ∨ q = tmp

theorem writeFile_isDir {p q : List Bytes} {data : Bytes} (hp : t.isDir p = false) :
    (writeFile newMode t p data).isDir q = t.isDir q := by
  by_cases hq : q = p
  · subst hq
    have hne := FileTree.ne_nil_of_isDir_eq_false hp
    rw [hp, writeFile, Bool.eq_false_iff, ne_eq, FileTree.isDir_iff, FileTree.get_set, if_pos rfl]
    rintro (hroot | hdir)
    · exact hne hroot
    · cases hdir
  · exact isDir_congr (writeFile_frame hq)

theorem stepExtractTo_isDir {data path : Bytes} {o : FsOutcome} {q : List Bytes} :
    (stepExtractTo newMode data path o t).2.isDir q = t.isDir q := by
  unfold stepExtractTo
  split
  · next hopen =>
    have hfile := (canOpen_iff.mp hopen).1
    split
    · exact writeFile_isDir hfile
    · split
      · rfl
      · exact writeFile_isDir hfile
  · rfl

theorem stepRemove_isDir {path : Bytes} {o : FsOutcome} {q : List Bytes}
    (h : (stepRemove path o t).2.isDir q = true) : t.isDir q = true := by
  unfold stepRemove at h
  split at h
  · exact h
  rw [FileTree.isDir_iff] at h ⊢
  refine h.imp_right fun hdir => ?_
  split at hdir
  · rw [FileTree.get_removeUnder] at hdir
    split at hdir
    · cases hdir
    · exact hdir
  · rw [FileTree.get_prune] at hdir
    split at hdir
    · cases hdir
    · exact hdir

theorem stepRename_isDir {src dst : Bytes} {o : FsOutcome} {q : List Bytes}
    (h : (stepRename src dst o t).2.isDir q = true) : t.isDir q = true := by
  unfold stepRename at h
  split at h
  · exact h
  split at h
  · rw [FileTree.isDir_iff] at h ⊢
    refine h.imp_right fun hdir => ?_
    rw [FileTree.get_set] at hdir
    split at hdir
    · cases hdir
    · rw [FileTree.get_removeUnder] at hdir
      split at hdir
      · cases hdir
      · exact hdir
  · exact h

/-- The path at which a call may make something. -/
def FsOp.makes : FsOp → Option Bytes
  | .mkdir path => some path
  | .remove _ => none
  | .extractTo _ path => some path
  | .chmod _ _ => none
  | .move _ dst => some dst

theorem isSome_set {p q : List Bytes} {n : Node FileNode} (h : ((t.set p n).get q).isSome) :
    (t.get q).isSome ∨ q = p := by
  rw [FileTree.get_set] at h
  split at h
  · next hq => exact Or.inr hq
  · exact Or.inl h

theorem isSome_removeUnder {p q : List Bytes} (h : ((t.removeUnder p).get q).isSome) : (t.get q).isSome := by
  rw [FileTree.get_removeUnder] at h
  split at h
  · cases h
  · exact h

/-- What is there after a call was there before, or is what it makes. -/
theorem step_makes {o : FsOp} {out : FsOutcome} {q : List Bytes}
    (h : (((fsDevice newMode).step o out t).2.get q).isSome) :
    (t.get q).isSome ∨ ∃ path, o.makes = some path ∧ q = fsPath path := by
  cases o with
  | mkdir path =>
      have h : ((stepMkdir path out t).2.get q).isSome := h
      rcases stepMkdir_cases path out t with ⟨heq, _⟩ | ⟨heq, _⟩ | heq
      · rw [heq] at h
        exact Or.inl h
      · rw [heq] at h
        exact (isSome_set h).imp_right fun hq => ⟨path, rfl, hq⟩
      · rw [heq] at h
        exact Or.inl h
  | remove path =>
      have h : ((stepRemove path out t).2.get q).isSome := h
      unfold stepRemove at h
      split at h
      · exact Or.inl h
      split at h
      · exact Or.inl (isSome_removeUnder h)
      · rw [FileTree.get_prune] at h
        split at h
        · cases h
        · exact Or.inl h
  | extractTo data path =>
      have h : ((stepExtractTo newMode data path out t).2.get q).isSome := h
      by_cases hq : q = fsPath path
      · exact Or.inr ⟨path, rfl, hq⟩
      left
      unfold stepExtractTo at h
      split at h
      · split at h
        · rwa [writeFile_frame hq] at h
        · split at h
          · exact h
          · rwa [writeFile_frame hq] at h
      · exact h
  | chmod path mode =>
      have h : ((stepChmod path mode out t).2.get q).isSome := h
      unfold stepChmod at h
      split at h
      · split at h
        · exact Or.inl h
        split at h
        · next f hf =>
          -- the file whose mode is set was there
          refine Or.inl ((isSome_set h).elim id fun hq => ?_)
          rw [hq, FileTree.get_of_fileAt hf]
          rfl
        · exact Or.inl h
      · exact Or.inl h
  | move src dst =>
      have h : ((stepRename src dst out t).2.get q).isSome := h
      unfold stepRename at h
      split at h
      · exact Or.inl h
      split at h
      · exact (isSome_set h).imp isSome_removeUnder fun hq => ⟨dst, rfl, hq⟩
      · exact Or.inl h

theorem CallFor.makes {full tmp : List Bytes} {o : FsOp} {path : Bytes} (ho : CallFor dest full tmp o)
    (hmakes : o.makes = some path) : fsPath path <+: full ∨ fsPath path = tmp := by
  cases o with
  | mkdir p =>
      cases hmakes
      exact Or.inl ho
  | remove p => cases hmakes
  | extractTo data p =>
      cases hmakes
      exact Or.inr ho.2
  | chmod p mode => cases hmakes
  | move p p' =>
      cases hmakes
      exact Or.inl (ho.2.2 ▸ List.prefix_refl _)

/-- A call keeps the destination, and makes no directories but on the way. -/
theorem CallFor.dirs {full tmp : List Bytes} {o : FsOp} {out : FsOutcome} (ho : CallFor dest full tmp o)
    (hdest : t.isDir (fsPath dest) = true) :
    ((fsDevice newMode).step o out t).2.isDir (fsPath dest) = true
      ∧ ∀ q, ((fsDevice newMode).step o out t).2.isDir q = true → t.isDir q = true ∨ q <+: full := by
  cases o with
  | mkdir p =>
      have hgrown : GrownAt [fsPath p] t ((fsDevice newMode).step (.mkdir p) out t).2 := stepMkdir_grownAt rfl
      refine ⟨hgrown.grown.isDir hdest, fun q hq => ?_⟩
      rcases hgrown q with heq | ⟨hplace, _⟩
      · exact Or.inl (isDir_congr heq ▸ hq)
      · rw [List.mem_singleton.mp hplace]
        exact Or.inr ho
  | remove p =>
      have hframe : ¬ fsPath p <+: fsPath dest := fun hback => ho.2 (hback.eq_of_length_le ho.1.length_le)
      refine ⟨?_, fun q hq => Or.inl (stepRemove_isDir hq)⟩
      show (stepRemove p out t).2.isDir (fsPath dest) = true
      rw [isDir_congr (stepRemove_frame hframe)]
      exact hdest
  | extractTo data p =>
      refine ⟨?_, fun q hq => Or.inl ?_⟩
      · exact stepExtractTo_isDir.trans hdest
      · exact stepExtractTo_isDir.symm.trans hq
  | chmod p mode =>
      have hsame : SameData t ((fsDevice newMode).step (.chmod p mode) out t).2 := stepChmod_same rfl
      exact ⟨(hsame.dir _).trans hdest, fun q hq => Or.inl ((hsame.dir q).symm.trans hq)⟩
  | move p p' =>
      have hframe : ¬ fsPath p <+: fsPath dest := fun hback => ho.1.2 (hback.eq_of_length_le ho.1.1.length_le)
      refine ⟨?_, fun q hq => Or.inl (stepRename_isDir hq)⟩
      show (stepRename p p' out t).2.isDir (fsPath dest) = true
      unfold stepRename
      split
      · exact hdest
      split
      · next hopen =>
        -- the destination is a directory, and no file is moved over it
        have hfile := (canOpen_iff.mp (Bool.and_eq_true_iff.mp hopen).2).1
        have hne : fsPath dest ≠ fsPath p' := by
          intro heq
          rw [← heq, hdest] at hfile
          cases hfile
        rw [isDir_congr (s := t)]
        · exact hdest
        · rw [FileTree.get_set, if_neg hne, FileTree.get_removeUnder, if_neg hframe]
      · exact hdest

/-- **Each call keeps what is kept.** -/
theorem Extracting.step {full tmp : List Bytes} {o : FsOp} {out : FsOutcome} (ho : CallFor dest full tmp o)
    (h : Extracting dest full tmp s t) : Extracting dest full tmp s ((fsDevice newMode).step o out t).2 := by
  refine ⟨step_posix h.posix, (ho.dirs h.dest).1, fun q hq => ?_, fun q hq => ?_⟩
  · exact ((ho.dirs h.dest).2 q hq).elim (h.dirs q) Or.inr
  · rcases step_makes hq with hold | ⟨path, hmakes, rfl⟩
    · exact h.nodes q hold
    · exact Or.inr (ho.makes hmakes)

theorem Extracting.start {full tmp : List Bytes} (hposix : Posix s) (hdest : s.isDir (fsPath dest) = true) :
    Extracting dest full tmp s s :=
  ⟨hposix, hdest, fun _ hq => Or.inl hq, fun _ hq => Or.inl hq⟩

/-! ## The tree that is left -/

theorem shownAt_eq {r : List Bytes} (hr : r ≠ []) :
    shownAt t r = if t.isDir r then some .dir else (dataAt t r).map .file := by
  unfold shownAt dataAt FileTree.fileAt
  cases hget : t.get r with
  | none =>
      rw [if_neg]
      · rfl
      · rw [FileTree.isDir_iff, hget]
        rintro (hroot | hdir)
        · exact hr hroot
        · cases hdir
  | some n =>
      cases n with
      | dir =>
          rw [if_pos (FileTree.isDir_iff.mpr (Or.inr hget))]
          rfl
      | file f =>
          rw [if_neg]
          · rfl
          · rw [FileTree.isDir_iff, hget]
            rintro (hroot | hdir)
            · exact hr hroot
            · cases hdir

/-- The entries are laid over what was in the destination. -/
def LaidOver (dest : Bytes) (entries : List Entry) (s t : Fs) : Prop :=
  ∀ q, q ≠ [] → shownAt t (fsPath dest ++ q) = (layEntries entries (viewAt s (fsPath dest))).get q

/-- The data of a file entry stand under its name. -/
theorem EntryPass.data_put (hpass : EntryPass dest e s t) (hfile : e.isDir = false) :
    dataAt t (putKey dest e) = some e.data := by
  rw [hpass.content, entryEffect, if_neg (by simp [hfile]), putKey, if_neg (by simp [hfile])]
  exact if_pos rfl

/-- The directory of a directory entry is there. -/
theorem EntryPass.isDir_put (hpass : EntryPass dest e s t) (hdir : e.isDir = true) :
    t.isDir (putKey dest e) = true := by
  rw [putKey, if_pos hdir]
  exact hpass.made hdir

/-- The entry is there as what it is. -/
theorem EntryPass.shownAt_put (hpass : EntryPass dest e s t)
    (hkept : Extracting dest (putKey dest e) (tmpKey dest e) s t) (hr : putKey dest e ≠ []) :
    shownAt t (putKey dest e) = some (if e.isDir then .dir else .file e.data) := by
  rw [shownAt_eq hr]
  cases hdir : e.isDir with
  | true => rw [if_pos (hpass.isDir_put hdir), if_pos rfl]
  | false =>
      have hdata := hpass.data_put hdir
      obtain ⟨f, hf⟩ := Option.isSome_iff_exists.mp (fileAt_isSome_of_dataAt hdata)
      rw [hkept.posix.tree.isDir_of_fileAt hf, hdata, if_neg Bool.false_ne_true, if_neg Bool.false_ne_true]
      rfl

/-- On the way to the entry there are directories. -/
theorem EntryPass.shownAt_way (hpass : EntryPass dest e s t)
    (hkept : Extracting dest (putKey dest e) (tmpKey dest e) s t) {r : List Bytes} (hr : r ≠ [])
    (hway : r <+: putKey dest e) (hne : r ≠ putKey dest e) : shownAt t r = some .dir := by
  have hthere : (t.get (putKey dest e)).isSome := by
    cases hdir : e.isDir with
    | true =>
        rcases FileTree.isDir_iff.mp (hpass.isDir_put hdir) with hroot | hget
        · rw [hroot, List.prefix_nil] at hway
          exact absurd hway hr
        · rw [hget]
          rfl
    | false => exact isSome_of_dataAt (by rw [hpass.data_put hdir]; rfl)
  obtain ⟨rest, hrest⟩ := hway
  obtain ⟨n, hn⟩ := Option.isSome_iff_exists.mp hthere
  have hlonger : rest ≠ [] := by
    rintro rfl
    rw [List.append_nil] at hrest
    exact hne hrest
  rw [← hrest] at hn
  rw [shownAt_eq hr, if_pos (hkept.posix.tree.isDir_of_below hlonger hn)]

/-- What is neither on the way to the entry nor at its temporary name is left as it was. -/
theorem EntryPass.shownAt_frame (hpass : EntryPass dest e s t)
    (hkept : Extracting dest (putKey dest e) (tmpKey dest e) s t) {r : List Bytes} (hr : r ≠ [])
    (hnot : ¬ r <+: putKey dest e) (hclear : e.isDir = false → ¬ tmpKey dest e <+: r) :
    shownAt t r = shownAt s r := by
  have hdir : t.isDir r = s.isDir r := by
    rw [Bool.eq_iff_iff]
    exact ⟨fun h => (hkept.dirs _ h).resolve_right hnot, fun h => hpass.dirs _ h hclear⟩
  have hdata : dataAt t r = dataAt s r := by
    rw [hpass.content, entryEffect]
    split
    · rfl
    · next hfile =>
      have hfile : e.isDir = false := by simpa using hfile
      rw [fileEffect, if_neg, if_neg (hclear hfile)]
      rintro rfl
      rw [putKey, if_neg (by simp [hfile])] at hnot
      exact hnot (List.prefix_refl _)
  rw [shownAt_eq hr, shownAt_eq hr, hdir, hdata]

/-- **A pass that succeeds lays its entry over what was there.** -/
theorem EntryPass.laidOver (hsafe : NameSafe e.filename) (hpass : EntryPass dest e s t)
    (hkept : Extracting dest (putKey dest e) (tmpKey dest e) s t) : LaidOver dest [e] s t := by
  intro q hne
  have hr : fsPath dest ++ q ≠ [] := List.append_ne_nil_of_right_ne_nil _ hne
  have hput := putKey_eq dest hsafe
  have hpre : q <+: relKey e ↔ fsPath dest ++ q <+: putKey dest e := by
    rw [hput, List.prefix_append_right_inj]
  have heq : q = relKey e ↔ fsPath dest ++ q = putKey dest e := by
    rw [hput, List.append_cancel_left_eq]
  show _ = (layEntry (viewAt s (fsPath dest)) e).get q
  rw [get_layEntry, get_viewAt, if_neg hne, get_entryNodes]
  split
  · next hself =>
    rw [heq.mp hself] at hr ⊢
    exact (hpass.shownAt_put hkept hr).trans (Option.some_or ..).symm
  next hself =>
  split
  · next hway => exact hpass.shownAt_way hkept hr (hpre.mp hway.2) (fun h => hself (heq.mpr h))
  next hoff =>
  have hnot : ¬ fsPath dest ++ q <+: putKey dest e := fun h => hoff ⟨hne, hpre.mpr h⟩
  rw [Option.none_or]
  split
  · next hclears =>
    -- the temporary file has been moved away, and what was there before it has been removed
    obtain ⟨hfile, hbelow⟩ := (clears_iff hsafe).mp hclears
    have hkey : fsPath dest ++ q ≠ entryKey dest e := by
      intro hself
      rw [putKey, if_neg (by simp [hfile]), ← hself] at hnot
      exact hnot (List.prefix_refl _)
    rw [shownAt, hpass.gone hfile _ hbelow hkey]
    rfl
  · next hclears =>
    exact hpass.shownAt_frame hkept hr hnot fun hfile hbelow =>
      hclears ((clears_iff hsafe).mpr ⟨hfile, hbelow⟩)

/-- Laid over step by step. -/
theorem LaidOver.cons {a : Entry} {as : List Entry} (h : LaidOver dest [a] s t) (hs : LaidOver dest as t u) :
    LaidOver dest (a :: as) s u := by
  intro q hq
  rw [hs q hq, layEntries_cons]
  refine get_layEntries_congr ?_
  rw [get_viewAt, if_neg hq]
  exact h q hq

/-- What an extraction keeps: the destination, in a file system that can be. -/
def DestKept (dest : Bytes) (t : Fs) : Prop := Posix t ∧ t.isDir (fsPath dest) = true

theorem extractEntry_exact (hdest : NoDotDot isAnySep dest) (hs : DestKept dest s) :
    Yields newMode (fun ok t => DestKept dest t ∧ (ok = true → LaidOver dest [e] s t)) (extractEntry dest e) s := by
  have hkept : Yields newMode (fun _ t => Extracting dest (putKey dest e) (tmpKey dest e) s t)
      (extractEntry dest e) s :=
    (Safe.of_only (fun _ _ _ ho h => h.step ho) (extractEntry_only hdest) (.start hs.1 hs.2)).weaken
      (fun _ _ => trivial) (fun _ _ => trivial) fun _ _ => trivial
  cases hpath : entryPath dest e with
  | none =>
      have heq : extractEntry dest e = pure false := by
        unfold extractEntry
        rw [hpath]
      rw [heq]
      exact ⟨hs, fun hok => by cases hok⟩
  | some path =>
      have hsafe := (entryPath_eq hpath).2
      refine ((extractEntry_yields e s).and_ends hkept fun _ _ => trivial).mono fun ok t h => ?_
      exact ⟨⟨h.2.posix, h.2.dest⟩, fun hok => (h.1 hok).laidOver hsafe h.2⟩

theorem extractEntries_exact (hdest : NoDotDot isAnySep dest) (entries : List Entry) (hs : DestKept dest s) :
    Yields newMode (fun status t => status = .error ∨ status = .ok ∧ LaidOver dest entries s t)
      (extractEntries dest entries) s := by
  induction entries generalizing s with
  | nil => exact Or.inr ⟨rfl, fun q hq => ((get_viewAt _ _ q).trans (if_neg hq)).symm⟩
  | cons a as ih =>
      unfold extractEntries
      refine Safe.bind ((extractEntry_exact hdest hs).mono fun extracted t h => ?_)
      obtain ⟨ht, hlaid⟩ := h
      cases extracted with
      | false => exact Or.inl rfl
      | true =>
          exact (ih ht).mono fun status u hrest => hrest.imp_right fun hrest => ⟨hrest.1, (hlaid rfl).cons hrest.2⟩

/-! ## The whole extraction -/

/-- Where a pass for the entry may make something. -/
def PathOf (dest : Bytes) (e : Entry) (q : List Bytes) : Prop := q <+: putKey dest e ∨ q = tmpKey dest e

/-- What has come to the destination is its entries', or on the way to them. -/
def NodesOf (dest : Bytes) (entries : List Entry) (s t : Fs) : Prop :=
  ∀ q, (t.get q).isSome → (s.get q).isSome ∨ q <+: fsPath dest ∨ ∃ e ∈ entries, NameSafe e.filename ∧ PathOf dest e q

/-- What holds all along an extraction: outside the destination nothing has changed, and the destination is a
    directory with nothing new but for the entries, or all there is as it was. -/
structure Unpacking (dest : Bytes) (archive : Option (List Entry)) (s t : Fs) : Prop where
  posix : Posix t
  outside : OutsideKept dest s t
  inside : t.isDir (fsPath dest) = true ∨ ∀ q, fsPath dest <+: q → t.get q = s.get q
  nodes : NodesOf dest (archive.getD []) s t

/-- What an extraction leaves that succeeds: the destination, with the entries laid over what was in it. -/
structure Unpacked (dest : Bytes) (entries : List Entry) (s t : Fs) : Prop where
  made : t.isDir (fsPath dest) = true
  laid : LaidOver dest entries s t

/-- `mkdir -p` makes nothing in the destination. -/
theorem GrownAt.get_inside (hdest : NoDotDot isAnySep dest) (h : GrownAt ((wayTo dest).map fsPath) s t)
    {q : List Bytes} (hq : q ≠ []) : t.get (fsPath dest ++ q) = s.get (fsPath dest ++ q) := by
  refine (h _).resolve_right fun hnew => ?_
  obtain ⟨d, hd, hplace⟩ := List.mem_map.mp hnew.1
  have hlen := (Copy.wayTo_noDotDot hdest.slash d hd).length_le
  rw [hplace, List.length_append] at hlen
  have hpos := List.length_pos_iff.mpr hq
  omega

theorem GrownAt.inside (hdest : NoDotDot isAnySep dest) (h : GrownAt ((wayTo dest).map fsPath) s t) :
    t.isDir (fsPath dest) = true ∨ ∀ q, fsPath dest <+: q → t.get q = s.get q := by
  rcases h (fsPath dest) with heq | ⟨_, _, _, hmade⟩
  · right
    rintro _ ⟨q, rfl⟩
    by_cases hq : q = []
    · rw [hq, List.append_nil]
      exact heq
    · exact h.get_inside hdest hq
  · exact Or.inl (FileTree.isDir_iff.mpr (Or.inr hmade))

theorem NodesOf.refl (dest : Bytes) (entries : List Entry) (s : Fs) : NodesOf dest entries s s :=
  fun _ hq => Or.inl hq

theorem NodesOf.trans {entries more : List Entry} (h₁ : NodesOf dest entries s t) (h₂ : NodesOf dest more t u) :
    NodesOf dest (entries ++ more) s u := by
  intro q hq
  rcases h₂ q hq with hold | hway | ⟨e, he, hmade⟩
  · rcases h₁ q hold with hold | hway | ⟨e, he, hmade⟩
    · exact Or.inl hold
    · exact Or.inr (Or.inl hway)
    · exact Or.inr (Or.inr ⟨e, List.mem_append_left _ he, hmade⟩)
  · exact Or.inr (Or.inl hway)
  · exact Or.inr (Or.inr ⟨e, List.mem_append_right _ he, hmade⟩)

theorem NodesOf.mono {entries more : List Entry} (h : NodesOf dest entries s t) (hmore : ∀ e ∈ entries, e ∈ more) :
    NodesOf dest more s t := fun q hq =>
  (h q hq).imp_right fun hq => hq.imp_right fun ⟨e, he, hmade⟩ => ⟨e, hmore e he, hmade⟩

/-- A pass of the entry loop keeps the destination, with nothing new in it but for its entry. -/
theorem extractEntry_kept (hdest : NoDotDot isAnySep dest) (e : Entry) (hs : DestKept dest s)
    {good : FsOutcome → Prop} :
    Safe (fsDevice newMode) (crashContract (fsDevice newMode) good fun t => DestKept dest t ∧ NodesOf dest [e] s t)
      (fun _ t => DestKept dest t ∧ NodesOf dest [e] s t) (extractEntry dest e) s := by
  cases hpath : entryPath dest e with
  | none =>
      have heq : extractEntry dest e = pure false := by
        unfold extractEntry
        rw [hpath]
      rw [heq]
      exact ⟨hs, .refl dest [e] s⟩
  | some path =>
      have hsafe := (entryPath_eq hpath).2
      have hpass : Safe (fsDevice newMode)
          (crashContract (fsDevice newMode) good (Extracting dest (putKey dest e) (tmpKey dest e) s))
          (fun _ t => Extracting dest (putKey dest e) (tmpKey dest e) s t) (extractEntry dest e) s :=
        (Safe.of_only (fun _ _ _ ho h => h.step ho) (extractEntry_only hdest) (.start hs.1 hs.2)).crash
      have hkept : ∀ t, Extracting dest (putKey dest e) (tmpKey dest e) s t → DestKept dest t ∧ NodesOf dest [e] s t :=
        fun t h => ⟨⟨h.posix, h.dest⟩, fun q hq =>
          (h.nodes q hq).imp_right fun hq => Or.inr ⟨e, List.mem_singleton.mpr rfl, hsafe, hq⟩⟩
      exact (hpass.crash_mono hkept).mono fun _ t h => hkept t h

/-- The entry loop keeps the destination, with nothing new in it but for its entries. -/
theorem extractEntries_kept (hdest : NoDotDot isAnySep dest) (entries : List Entry) (hs : DestKept dest s)
    {good : FsOutcome → Prop} :
    Safe (fsDevice newMode)
      (crashContract (fsDevice newMode) good fun t => DestKept dest t ∧ NodesOf dest entries s t)
      (fun _ t => DestKept dest t ∧ NodesOf dest entries s t) (extractEntries dest entries) s := by
  induction entries generalizing s with
  | nil => exact ⟨hs, .refl dest [] s⟩
  | cons a as ih =>
      have hfirst : ∀ {t}, NodesOf dest [a] s t → NodesOf dest (a :: as) s t := fun h =>
        h.mono fun e he => List.mem_singleton.mp he ▸ List.mem_cons_self
      unfold extractEntries
      refine Safe.bind (((extractEntry_kept hdest a hs).crash_mono fun t h => ⟨h.1, hfirst h.2⟩).mono
        fun extracted t ht => ?_)
      cases extracted with
      | false => exact ⟨ht.1, hfirst ht.2⟩
      | true =>
          have hrest : ∀ u, DestKept dest u ∧ NodesOf dest as t u → DestKept dest u ∧ NodesOf dest (a :: as) s u :=
            fun u hu => ⟨hu.1, ht.2.trans hu.2⟩
          exact ((ih ht.1).crash_mono hrest).mono fun _ u hu => hrest u hu

/-- What the entries are laid over may have been made by `mkdir -p`: it is empty then. -/
theorem LaidOver.after_makeDest {entries : List Entry} (hdest : NoDotDot isAnySep dest)
    (hgrown : GrownAt ((wayTo dest).map fsPath) s t) (h : LaidOver dest entries t u) : LaidOver dest entries s u := by
  intro q hq
  rw [h q hq]
  exact get_layEntries_congr (viewAt_congr (hgrown.get_inside hdest hq))

/-- The calls of `update_extract`: what is removed is something in the destination. -/
theorem updateExtract_only {cwd : Option Bytes} {zipPath destDir : Bytes}
    (hdest : extractDest cwd zipPath destDir = some dest) (archive : Option (List Entry)) :
    (updateExtract cwd archive zipPath destDir).Only fun o => ∃ full tmp, CallFor dest full tmp o := by
  have hdown := extractDest_noDotDot hdest
  unfold updateExtract
  rw [hdest]
  refine ((createDirectoryRecursive_only hdown.slash (List.prefix_refl _)).mono fun _ ho => ⟨_, [], ho⟩).bind
    fun made => ?_
  cases made with
  | false => exact .ret
  | true =>
      cases archive with
      | none => exact .ret
      | some entries =>
          show (extractEntries dest entries).Only _
          induction entries with
          | nil => exact .ret
          | cons a as ih =>
              unfold extractEntries
              refine ((extractEntry_only hdown).mono fun _ ho => ⟨_, _, ho⟩).bind fun extracted => ?_
              cases extracted with
              | true => exact ih
              | false => exact .ret

/-- `mkdir -p` makes nothing but directories on the way. -/
theorem GrownAt.nodes (hdest : NoDotDot isAnySep dest) (entries : List Entry)
    (h : GrownAt ((wayTo dest).map fsPath) s t) : NodesOf dest entries s t := by
  intro q hq
  rcases h q with heq | ⟨hplace, _⟩
  · exact Or.inl (heq ▸ hq)
  · obtain ⟨d, hd, rfl⟩ := List.mem_map.mp hplace
    exact Or.inr (Or.inl (Copy.wayTo_noDotDot hdest.slash d hd))

/-- What holds inside the destination all along an extraction. -/
def UnpackingIn (dest : Bytes) (entries : List Entry) (s t : Fs) : Prop :=
  Posix t ∧ (t.isDir (fsPath dest) = true ∨ ∀ q, fsPath dest <+: q → t.get q = s.get q) ∧ NodesOf dest entries s t

theorem UnpackingIn.of_grown (hdest : NoDotDot isAnySep dest) (entries : List Entry) (hposix : Posix t)
    (h : GrownAt ((wayTo dest).map fsPath) s t) : UnpackingIn dest entries s t :=
  ⟨hposix, h.inside hdest, h.nodes hdest entries⟩

theorem makeDest_unpacking (hdest : NoDotDot isAnySep dest) (entries : List Entry) (hs : Posix s)
    {good : FsOutcome → Prop} :
    Safe (fsDevice newMode) (crashContract (fsDevice newMode) good (UnpackingIn dest entries s))
      (fun made t => Posix t ∧ MadeWay (wayTo dest) s made t) (createDirectoryRecursive dest) s := by
  have hstep : ∀ (o : FsOp) (e : FsOutcome) (t : Fs), (∃ d ∈ wayTo dest, o = .mkdir d) →
      Posix t ∧ GrownAt ((wayTo dest).map fsPath) s t →
      Posix ((fsDevice newMode).step o e t).2
        ∧ GrownAt ((wayTo dest).map fsPath) s ((fsDevice newMode).step o e t).2 := by
    rintro o e t ⟨d, hd, rfl⟩ ⟨hposix, hgrown⟩
    refine ⟨step_posix hposix, hgrown.trans ?_⟩
    have hone : GrownAt [fsPath d] t ((fsDevice newMode).step (.mkdir d) e t).2 := stepMkdir_grownAt rfl
    refine hone.mono fun q hq => ?_
    rw [List.mem_singleton.mp hq]
    exact List.mem_map_of_mem hd
  have honly : (createDirectoryRecursive dest).Only fun o => ∃ d ∈ wayTo dest, o = .mkdir d :=
    createDirectoryRecursive_each fun d hd => ⟨d, hd, rfl⟩
  have hcrash : Safe (fsDevice newMode) (crashContract (fsDevice newMode) good fun t =>
        Posix t ∧ GrownAt ((wayTo dest).map fsPath) s t)
      (fun _ t => Posix t ∧ GrownAt ((wayTo dest).map fsPath) s t) (createDirectoryRecursive dest) s :=
    (Safe.of_only hstep honly ⟨hs, .refl _ s⟩).crash
  have hin := hcrash.crash_mono fun t h => UnpackingIn.of_grown hdest entries h.1 h.2
  refine (hin.and_ends (createDirectoryRecursive_madeWay dest s) fun _ _ => trivial).mono fun made t h => ?_
  exact ⟨h.1.1, h.2⟩

/-- The entry loop, after the destination is made. -/
theorem extractEntries_unpacking (hdest : NoDotDot isAnySep dest) (entries : List Entry)
    (hgrown : GrownAt ((wayTo dest).map fsPath) s t) (ht : DestKept dest t) {good : FsOutcome → Prop} :
    Safe (fsDevice newMode) (crashContract (fsDevice newMode) good (UnpackingIn dest entries s))
      (fun status u => UnpackingIn dest entries s u ∧ (status = .error ∨ status = .ok ∧ Unpacked dest entries s u))
      (extractEntries dest entries) t := by
  have hin : ∀ u, DestKept dest u ∧ NodesOf dest entries t u → UnpackingIn dest entries s u := fun u h =>
    ⟨h.1.1, Or.inl h.1.2, (hgrown.nodes hdest []).trans h.2⟩
  have hkept : Safe (fsDevice newMode) (crashContract (fsDevice newMode) good (UnpackingIn dest entries s))
      (fun _ u => DestKept dest u ∧ NodesOf dest entries t u) (extractEntries dest entries) t :=
    (extractEntries_kept hdest entries ht).crash_mono hin
  refine (hkept.and_ends (extractEntries_exact hdest entries ht) fun _ _ => trivial).mono fun status u h => ?_
  exact ⟨hin u h.1, h.2.imp_right fun hok => ⟨hok.1, h.1.1.2, hok.2.after_makeDest hdest hgrown⟩⟩

/-- **Extraction, moment by moment.** Wherever it is cut short, nothing outside the destination has changed, and the
    destination is a directory with nothing new but for the entries, or all there is as it was. Where it succeeds,
    miniz has opened the package, and its entries, directories included, are laid over what was there. -/
theorem updateExtract_unpacks {cwd : Option Bytes} {zipPath destDir : Bytes}
    (hdest : extractDest cwd zipPath destDir = some dest) (archive : Option (List Entry)) (hs : Posix s)
    {good : FsOutcome → Prop} :
    Safe (fsDevice newMode) (crashContract (fsDevice newMode) good (Unpacking dest archive s))
      (fun status t => Unpacking dest archive s t
        ∧ (status = .error ∨ status = .ok ∧ ∃ entries, archive = some entries ∧ Unpacked dest entries s t))
      (updateExtract cwd archive zipPath destDir) s := by
  have hdown := extractDest_noDotDot hdest
  have houtside : Safe (fsDevice newMode) (crashContract (fsDevice newMode) good (OutsideKept dest s))
      (fun _ t => OutsideKept dest s t) (updateExtract cwd archive zipPath destDir) s :=
    (updateExtract_inside hdest archive s (.refl dest s)).crash
  have hinside : Safe (fsDevice newMode)
      (crashContract (fsDevice newMode) good (UnpackingIn dest (archive.getD []) s))
      (fun status t => UnpackingIn dest (archive.getD []) s t
        ∧ (status = .error ∨ status = .ok ∧ ∃ entries, archive = some entries ∧ Unpacked dest entries s t))
      (updateExtract cwd archive zipPath destDir) s := by
    unfold updateExtract
    rw [hdest]
    refine Safe.bind ((makeDest_unpacking hdown _ hs).mono fun made t h => ?_)
    obtain ⟨hposix, hgrown, hmade⟩ := h
    cases made with
    | false => exact ⟨.of_grown hdown _ hposix hgrown, Or.inl rfl⟩
    | true =>
        have ht : DestKept dest t := ⟨hposix, hmade rfl dest (Copy.mem_wayTo_self dest)⟩
        cases archive with
        | none => exact ⟨.of_grown hdown _ hposix hgrown, Or.inl rfl⟩
        | some entries =>
            refine (extractEntries_unpacking hdown entries hgrown ht).mono fun status u hu => ⟨hu.1, ?_⟩
            exact hu.2.imp_right fun hok => ⟨hok.1, entries, rfl, hok.2⟩
  have hall : ∀ t, OutsideKept dest s t → UnpackingIn dest (archive.getD []) s t → Unpacking dest archive s t :=
    fun t hout hin => ⟨hin.1, hout, hin.2.1, hin.2.2⟩
  refine ((Safe.both houtside hinside).mono fun status t h => ⟨hall t h.1 h.2.1, h.2.2⟩).weaken
    (fun _ he => ⟨he, he⟩) (fun ev h e => ?_) fun t h => hall t h.1 h.2
  exact hall _ (h.1 e) (h.2 e)

end LibUpdate
