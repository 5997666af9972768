import LibUpdate.Extract.Paths

/-!
# `Extract.Complete` — what a successful extraction leaves

`EntryPass` says what one successful pass does to the content at every path: a file entry puts its content at
its path and takes away everything at its temporary path and below, a directory entry changes no content. The
run of the loop is the composition of these (`contentAfter`), and that all entries are there at the end is a
question about lists of entries: no file may lie at or below the temporary path of a later one.
Elsewhere an extraction lays the files of the archive over what was there (`extract_overlays`).
-/

namespace LibUpdate

variable {newMode : Nat} {dest : Bytes} {s t : Fs} {α β : Type}

/-- `dest/name`. -/
def fullPathOf (dest : Bytes) (e : Entry) : Bytes := dest ++ ch '/' :: e.filename

/-- Where the system finds the entry's path: the key under which its file is looked for after the extraction. -/
def entryKey (dest : Bytes) (e : Entry) : List Bytes := fsPath (fullPathOf dest e)

/-- Where the system finds the entry's temporary path, at which `update_extract` removes what is there before it
    writes. -/
def tmpKey (dest : Bytes) (e : Entry) : List Bytes := fsPath (fullPathOf dest e ++ extractingSuffix)

/-! ## The passes of the entry loop -/

theorem ensureParentDirs_yields (path : Bytes) (s : Fs) :
    Yields newMode (fun _ t => Grown s t) (ensureParentDirs path) s := by
  unfold ensureParentDirs
  split; · exact Grown.refl s
  split; · exact Grown.refl s
  split; · exact Grown.refl s
  exact (createDirectoryRecursive_yields _ s).mono fun _ _ h => h.1

theorem chmodEntry_yields (e : Entry) (path : Bytes) (s : Fs) :
    Yields newMode (fun _ t => SameData s t) (chmodEntry e path) s := by
  unfold chmodEntry
  split
  · exact yields_perform fun _ _ _ hstep => stepChmod_same hstep
  · exact SameData.refl s

theorem dropTmp_yields {Q : Bool → Fs → Prop} (hQ : ∀ t, Q false t) (path : Bytes) (s : Fs) :
    Yields newMode Q (dropTmp path) s :=
  yields_perform fun _ _ t _ => hQ t

/-- What a file entry at `full` with the temporary path `tmp` makes of the content `v` at `q`. -/
def fileEffect (full tmp : List Bytes) (data : Bytes) (q : List Bytes) (v : Option Bytes) : Option Bytes :=
  if q = full then some data else if tmp <+: q then none else v

/-- What a pass for a file does if it succeeds: it writes the content, clears the temporary path with all that is
    below it, and keeps every other directory. -/
structure FilePass (full tmp : List Bytes) (data : Bytes) (s t : Fs) : Prop where
  content : ∀ q, dataAt t q = fileEffect full tmp data q (dataAt s q)
  dirs : ∀ q, s.isDir q = true → ¬ tmp <+: q → t.isDir q = true
  gone : ∀ q, tmp <+: q → q ≠ full → t.get q = none

/-- Written, perhaps with new permission bits, and moved. -/
theorem filePass_of_rename {full tmp data : Bytes} {s s₂ : Fs} {f : FileNode}
    (hsame : SameData (writeFile newMode s (fsPath tmp) data) s₂) (hf : s₂.fileAt (fsPath tmp) = some f)
    (hfull : s₂.isDir (fsPath full) = false) :
    FilePass (fsPath full) (fsPath tmp) data s ((s₂.removeUnder (fsPath tmp)).set (fsPath full) (.file f)) := by
  have hne : ∀ {q}, ¬ fsPath tmp <+: q → q ≠ fsPath tmp := by
    rintro q hq rfl
    exact hq (List.prefix_refl _)
  constructor
  · intro q
    unfold fileEffect
    split
    · next hq =>
      have hwritten := hsame.data (fsPath tmp)
      unfold dataAt at hwritten ⊢
      rw [hf] at hwritten
      unfold FileTree.fileAt writeFile at hwritten
      unfold FileTree.fileAt
      rw [FileTree.get_set, if_pos rfl] at hwritten
      rw [FileTree.get_set, if_pos hq]
      exact hwritten
    next hq =>
    split
    · next hbelow =>
      unfold dataAt FileTree.fileAt
      rw [FileTree.get_set, if_neg hq, FileTree.get_removeUnder, if_pos hbelow]
      rfl
    · next hbelow =>
      rw [dataAt_congr (s := s₂) (by rw [FileTree.get_set, if_neg hq, FileTree.get_removeUnder, if_neg hbelow]),
        hsame.data, dataAt_congr (writeFile_frame (hne hbelow))]
  · intro q hdir hbelow
    have hdir₂ : s₂.isDir q = true := by
      rwa [hsame.dir, isDir_congr (writeFile_frame (hne hbelow))]
    have hq : q ≠ fsPath full := by
      rintro rfl
      rw [hfull] at hdir₂
      cases hdir₂
    rwa [isDir_congr (s := s₂)]
    rw [FileTree.get_set, if_neg hq, FileTree.get_removeUnder, if_neg hbelow]
  · intro q hbelow hq
    rw [FileTree.get_set, if_neg hq, FileTree.get_removeUnder, if_pos hbelow]

theorem writeEntry_yields {e : Entry} {full tmp : Bytes} (s : Fs) :
    Yields newMode (fun ok t => ok = true → FilePass (fsPath full) (fsPath tmp) e.data s t)
      (writeEntry e full tmp) s := by
  unfold writeEntry
  refine yields_perform fun _ written s₁ hwrite => ?_
  cases written with
  | false => exact dropTmp_yields (fun _ hok => by cases hok) tmp s₁
  | true =>
      obtain ⟨_, rfl⟩ := stepExtractTo_ok hwrite
      refine Safe.bind ((chmodEntry_yields e tmp _).mono fun _ s₂ hsame => ?_)
      refine yields_perform fun _ moved s₃ hmove => ?_
      cases moved with
      | false => exact dropTmp_yields (fun _ hok => by cases hok) tmp s₃
      | true =>
          intro _
          obtain ⟨f, hf, hfull, rfl⟩ := stepRename_ok hmove
          exact filePass_of_rename hsame hf hfull

theorem extractFile_yields {e : Entry} {full : Bytes} (s : Fs) :
    Yields newMode (fun ok t => ok = true →
        FilePass (fsPath full) (fsPath (full ++ extractingSuffix)) e.data s t) (extractFile e full) s := by
  unfold extractFile
  split
  · intro hok
    cases hok
  next tmp htmp =>
  obtain rfl := (snprintf_eq_some.mp htmp).2
  refine yields_perform fun outcome _ s₁ hremove => ?_
  refine Safe.bind ((ensureParentDirs_yields full s₁).mono fun parents s₂ hgrown => ?_)
  cases parents with
  | false =>
      intro hok
      cases hok
  | true =>
      refine (writeEntry_yields s₂).mono fun ok t hpass hok => ?_
      obtain ⟨hcontent, hdirs, hgone⟩ := hpass hok
      -- whatever became of the removal, only the temporary path can have changed
      have hframe : ∀ q, ¬ fsPath (full ++ extractingSuffix) <+: q → s₁.get q = s.get q := by
        intro q hq
        have h := stepRemove_frame (e := outcome) (t := s) hq
        rwa [show stepRemove _ outcome s = _ from hremove] at h
      refine ⟨?_, ?_, hgone⟩
      · intro q
        rw [hcontent, hgrown.dataAt_eq]
        unfold fileEffect
        split; · rfl
        split; · rfl
        next hbelow => exact dataAt_congr (hframe q hbelow)
      · intro q hdir hbelow
        apply hdirs q _ hbelow
        apply hgrown.isDir
        rwa [isDir_congr (hframe q hbelow)]

/-- What a pass for a directory does if it succeeds. -/
structure DirPass (full : List Bytes) (s t : Fs) : Prop where
  content : ∀ q, dataAt t q = dataAt s q
  dirs : ∀ q, s.isDir q = true → t.isDir q = true
  made : t.isDir full = true

theorem extractDir_yields {e : Entry} {full : Bytes} (s : Fs) :
    Yields newMode (fun ok t => ok = true → DirPass (fsPath (stripTrailingSeps full)) s t)
      (extractDir e full) s := by
  unfold extractDir
  refine Safe.bind ((createDirectoryRecursive_yields _ s).mono fun made s₁ hmade => ?_)
  cases made with
  | false =>
      intro hok
      cases hok
  | true =>
      refine Safe.bind ((chmodEntry_yields e _ s₁).mono fun _ s₂ hsame => ?_)
      intro _
      refine ⟨fun q => ?_, fun q hdir => ?_, ?_⟩
      · rw [hsame.data, hmade.1.dataAt_eq]
      · rw [hsame.dir]
        exact hmade.1.isDir hdir
      · rw [hsame.dir]
        exact hmade.2 rfl

/-! ## The entry loop -/

/-- Where a directory entry is made: trailing separators are trimmed. -/
def dirKey (dest : Bytes) (e : Entry) : List Bytes := fsPath (stripTrailingSeps (fullPathOf dest e))

/-- What a successful pass for an entry makes of the content `v` at `q`. -/
def entryEffect (dest : Bytes) (e : Entry) (q : List Bytes) (v : Option Bytes) : Option Bytes :=
  if e.isDir then v else fileEffect (entryKey dest e) (tmpKey dest e) e.data q v

/-- The content at `q` after successful passes for the entries, each of which may write it, take it away or leave
    it. -/
def contentAfter (dest : Bytes) (entries : List Entry) (q : List Bytes) (v : Option Bytes) : Option Bytes :=
  entries.foldl (fun v e => entryEffect dest e q v) v

theorem contentAfter_cons (a : Entry) (as : List Entry) (q : List Bytes) (v : Option Bytes) :
    contentAfter dest (a :: as) q v = contentAfter dest as q (entryEffect dest a q v) := rfl

/-- What a successful pass for an entry does to the contents and to the directories: one statement for files and
    directories, over which the loop is then an induction. -/
structure EntryPass (dest : Bytes) (e : Entry) (s t : Fs) : Prop where
  content : ∀ q, dataAt t q = entryEffect dest e q (dataAt s q)
  dirs : ∀ q, s.isDir q = true → (e.isDir = false → ¬ tmpKey dest e <+: q) → t.isDir q = true
  made : e.isDir = true → t.isDir (dirKey dest e) = true
  gone : e.isDir = false → ∀ q, tmpKey dest e <+: q → q ≠ entryKey dest e → t.get q = none

theorem extractEntry_yields (e : Entry) (s : Fs) :
    Yields newMode (fun ok t => ok = true → EntryPass dest e s t) (extractEntry dest e) s := by
  unfold extractEntry
  split
  · intro hok
    cases hok
  next fullPath hpath =>
  obtain rfl := (entryPath_eq hpath).1
  split
  · next hdir =>
    refine (extractDir_yields s).mono fun ok t hpass hok => ?_
    obtain ⟨hcontent, hdirs, hmade⟩ := hpass hok
    refine ⟨fun q => ?_, fun q hq _ => hdirs q hq, fun _ => hmade, fun hfile => ?_⟩
    · rw [hcontent, entryEffect, if_pos hdir]
    · rw [hdir] at hfile
      cases hfile
  · next hfile =>
    refine (extractFile_yields s).mono fun ok t hpass hok => ?_
    obtain ⟨hcontent, hdirs, hgone⟩ := hpass hok
    refine ⟨fun q => ?_, fun q hq hbelow => hdirs q hq (hbelow (by simpa using hfile)), fun hdir => ?_, fun _ => hgone⟩
    · rw [hcontent, entryEffect, if_neg hfile]
      rfl
    · exact absurd hdir hfile

/-- What a run of the entry loop does if it succeeds: to the content at every path, and to a directory that no
    later temporary path takes away. -/
structure EntriesDone (dest : Bytes) (entries : List Entry) (s t : Fs) : Prop where
  content : ∀ q, dataAt t q = contentAfter dest entries q (dataAt s q)
  dirs : ∀ q, s.isDir q = true → (∀ e ∈ entries, e.isDir = false → ¬ tmpKey dest e <+: q) → t.isDir q = true
  made : (entries.Pairwise fun a b => a.isDir = true → b.isDir = false → ¬ tmpKey dest b <+: dirKey dest a) →
    ∀ e ∈ entries, e.isDir = true → t.isDir (dirKey dest e) = true

theorem extractEntries_yields (entries : List Entry) (s : Fs) :
    Yields newMode (fun status t => status = .ok → EntriesDone dest entries s t)
      (extractEntries dest entries) s := by
  induction entries generalizing s with
  | nil => exact fun _ => ⟨fun _ => rfl, fun q hq _ => hq, fun _ e he => by cases he⟩
  | cons e es ih =>
      unfold extractEntries
      refine Safe.bind ((extractEntry_yields e s).mono fun extracted s₁ hpass => ?_)
      cases extracted with
      | false =>
          intro hok
          cases hok
      | true =>
          -- the rest of the loop starts from what this pass has left
          obtain ⟨hcontent, hdirs, hmade, _⟩ := hpass rfl
          refine (ih s₁).mono fun status t hrest hok => ?_
          obtain ⟨hcontent', hdirs', hmade'⟩ := hrest hok
          refine ⟨fun q => ?_, fun q hq hclear => ?_, fun hclear e' he' hdir => ?_⟩
          · rw [hcontent', hcontent]
            rfl
          · rw [List.forall_mem_cons] at hclear
            exact hdirs' q (hdirs q hq hclear.1) hclear.2
          · rw [List.pairwise_cons] at hclear
            rcases List.mem_cons.mp he' with rfl | he'
            · exact hdirs' _ (hmade hdir) fun b hb hfile => hclear.1 b hb hdir hfile
            · exact hmade' hclear.2 e' he' hdir

/-! ## Which archives are extracted completely -/

/-- No file lies at or below the temporary path of a later file. -/
def NoTmpClash (dest : Bytes) (entries : List Entry) : Prop :=
  entries.Pairwise fun a b => a.isDir = false → b.isDir = false → ¬ tmpKey dest b <+: entryKey dest a

/-- No entry has the path of another one, as in an archive that lists each of its files once. -/
def DistinctPaths (dest : Bytes) (entries : List Entry) : Prop :=
  entries.Pairwise fun a b => entryKey dest a ≠ entryKey dest b

/-- What is there before does not matter at the path of a file that is written. -/
theorem contentAfter_of_mem {entries : List Entry} {e : Entry} (he : e ∈ entries) (hfile : e.isDir = false)
    (v w : Option Bytes) :
    contentAfter dest entries (entryKey dest e) v = contentAfter dest entries (entryKey dest e) w := by
  induction entries generalizing v w with
  | nil => cases he
  | cons a as ih =>
      rw [contentAfter_cons, contentAfter_cons]
      rcases List.mem_cons.mp he with rfl | he
      · congr 1
        simp [entryEffect, hfile, fileEffect]
      · exact ih he _ _

/-- Nothing appears at a path that no entry has. -/
theorem contentAfter_none {entries : List Entry} {q : List Bytes} (hq : ∀ e ∈ entries, entryKey dest e ≠ q) :
    contentAfter dest entries q none = none := by
  induction entries with
  | nil => rfl
  | cons a as ih =>
      rw [List.forall_mem_cons] at hq
      have ha : entryEffect dest a q none = none := by
        unfold entryEffect fileEffect
        rw [if_neg (Ne.symm hq.1)]
        simp
      rw [contentAfter_cons, ha]
      exact ih hq.2

/-- The content at a path that no entry has stays exactly when no temporary path takes it away. -/
theorem contentAfter_eq_some_iff {entries : List Entry} {q : List Bytes}
    (hq : ∀ e ∈ entries, entryKey dest e ≠ q) (d : Bytes) :
    contentAfter dest entries q (some d) = some d
      ↔ ∀ e ∈ entries, e.isDir = false → ¬ tmpKey dest e <+: q := by
  induction entries with
  | nil => exact iff_of_true rfl fun e he => by cases he
  | cons a as ih =>
      rw [List.forall_mem_cons] at hq ⊢
      rw [contentAfter_cons]
      by_cases hgone : a.isDir = false ∧ tmpKey dest a <+: q
      · -- gone once, gone for good: no later entry writes there
        have hnone : entryEffect dest a q (some d) = none := by
          unfold entryEffect fileEffect
          rw [if_neg (by simp [hgone.1]), if_neg (Ne.symm hq.1), if_pos hgone.2]
        rw [hnone, contentAfter_none hq.2]
        exact iff_of_false (fun h => by cases h) fun h => h.1 hgone.1 hgone.2
      · have hkept : entryEffect dest a q (some d) = some d := by
          unfold entryEffect fileEffect
          split; · rfl
          next hfile => rw [if_neg (Ne.symm hq.1), if_neg fun h => hgone ⟨by simpa using hfile, h⟩]
        rw [hkept, ih hq.2]
        exact ⟨fun h => ⟨fun hfile hbelow => hgone ⟨hfile, hbelow⟩, h⟩, fun h => h.2⟩

/-- **All files are there at the end exactly when no temporary path took one away.** -/
theorem complete_iff {entries : List Entry} (hdistinct : DistinctPaths dest entries)
    (v : List Bytes → Option Bytes) :
    (∀ e ∈ entries, e.isDir = false →
        contentAfter dest entries (entryKey dest e) (v (entryKey dest e)) = some e.data)
      ↔ NoTmpClash dest entries := by
  induction entries with
  | nil => exact iff_of_true (fun e he => by cases he) .nil
  | cons a as ih =>
      unfold DistinctPaths at hdistinct
      unfold NoTmpClash
      rw [List.pairwise_cons] at hdistinct ⊢
      rw [List.forall_mem_cons]
      apply and_congr
      · -- the first file, which the later entries may take away
        have hwritten : a.isDir = false → contentAfter dest (a :: as) (entryKey dest a) (v (entryKey dest a))
            = contentAfter dest as (entryKey dest a) (some a.data) := by
          intro hfile
          rw [contentAfter_cons]
          unfold entryEffect fileEffect
          rw [if_neg (by simp [hfile]), if_pos rfl]
        constructor
        · intro h b hb hfile
          have := h hfile
          rw [hwritten hfile, contentAfter_eq_some_iff fun e he => Ne.symm (hdistinct.1 e he)] at this
          exact this b hb
        · intro h hfile
          rw [hwritten hfile, contentAfter_eq_some_iff fun e he => Ne.symm (hdistinct.1 e he)]
          intro b hb
          exact h b hb hfile
      · -- the later files, for which the first one makes no difference
        refine Iff.trans (forall₂_congr fun e he => imp_congr_right fun hfile => ?_) (ih hdistinct.2)
        rw [contentAfter_cons, contentAfter_of_mem he hfile _ (v (entryKey dest e))]

/-- The files of the archive as a tree. -/
def packageTree (dest : Bytes) (entries : List Entry) : FileTree Bytes Bytes :=
  entries.filterMap fun e => if e.isDir then none else some (entryKey dest e, .file e.data)

theorem packageTree_cons_dir {a : Entry} (ha : a.isDir = true) (as : List Entry) :
    packageTree dest (a :: as) = packageTree dest as := by
  simp [packageTree, ha]

theorem packageTree_cons_file {a : Entry} (ha : a.isDir = false) (as : List Entry) (q : List Bytes) :
    (packageTree dest (a :: as)).get q
      = if q = entryKey dest a then some (.file a.data) else (packageTree dest as).get q := by
  have hcons : packageTree dest (a :: as) = (entryKey dest a, .file a.data) :: packageTree dest as := by
    simp [packageTree, ha]
  rw [hcons, FileTree.get_cons]

/-- The tree of an archive has nothing but files. -/
theorem packageTree_get_eq_none_of_fileAt {entries : List Entry} {q : List Bytes}
    (h : (packageTree dest entries).fileAt q = none) : (packageTree dest entries).get q = none := by
  cases hget : (packageTree dest entries).get q with
  | none => rfl
  | some n =>
      cases n with
      | file d =>
          rw [FileTree.fileAt, hget] at h
          cases h
      | dir =>
          exfalso
          clear h
          induction entries with
          | nil => cases hget
          | cons a as ih =>
              cases ha : a.isDir with
              | true =>
                  rw [packageTree_cons_dir ha] at hget
                  exact ih hget
              | false =>
                  rw [packageTree_cons_file ha] at hget
                  split at hget
                  · cases hget
                  · exact ih hget

theorem packageTree_fileAt_of_ne {entries : List Entry} {q : List Bytes}
    (hq : ∀ e ∈ entries, entryKey dest e ≠ q) : (packageTree dest entries).fileAt q = none := by
  have hget : (packageTree dest entries).get q = none := by
    induction entries with
    | nil => rfl
    | cons a as ih =>
        rw [List.forall_mem_cons] at hq
        cases ha : a.isDir with
        | true =>
            rw [packageTree_cons_dir ha]
            exact ih hq.2
        | false =>
            rw [packageTree_cons_file ha, if_neg (Ne.symm hq.1)]
            exact ih hq.2
  rw [FileTree.fileAt, hget]

/-- At a path that no temporary path takes away, the entries lay their files over what is there. -/
theorem contentAfter_of_clear {entries : List Entry} (hdistinct : DistinctPaths dest entries) {q : List Bytes}
    (hq : ∀ e ∈ entries, e.isDir = false → ¬ tmpKey dest e <+: q) {v : Option Bytes} :
    contentAfter dest entries q v = ((packageTree dest entries).fileAt q).or v := by
  induction entries generalizing v with
  | nil => rfl
  | cons a as ih =>
      unfold DistinctPaths at hdistinct
      rw [List.pairwise_cons] at hdistinct
      rw [List.forall_mem_cons] at hq
      rw [contentAfter_cons, ih hdistinct.2 hq.2]
      cases ha : a.isDir with
      | true =>
          rw [packageTree_cons_dir ha]
          unfold entryEffect
          rw [if_pos ha]
      | false =>
          unfold entryEffect fileEffect
          rw [if_neg (by simp [ha])]
          split
          · next hself =>
            -- no later entry has this path
            subst hself
            have hlater := packageTree_fileAt_of_ne fun e he => Ne.symm (hdistinct.1 e he)
            rw [hlater, FileTree.fileAt, packageTree_cons_file ha, if_pos rfl]
            rfl
          · next hother =>
            rw [if_neg (hq.1 ha), FileTree.fileAt, FileTree.fileAt, packageTree_cons_file ha, if_neg hother]

/-- An entry without permission bits whose content is its name. -/
def sampleEntry (name : Bytes) (isDir : Bool) : Entry := ⟨true, 0, name, isDir, 0, name⟩

/-- No directory lies at or below the temporary path of a later file. -/
def DirsClear (dest : Bytes) (entries : List Entry) : Prop :=
  entries.Pairwise fun a b => a.isDir = true → b.isDir = false → ¬ tmpKey dest b <+: dirKey dest a

/-- What `update_extract` leaves, if it succeeds. -/
theorem updateExtract_yields {cwd : Option Bytes} {zipPath destDir : Bytes}
    (hdest : extractDest cwd zipPath destDir = some dest) (entries : List Entry) (s : Fs) :
    Yields newMode (fun status t => status = .ok → ∃ s₁, Grown s s₁ ∧ EntriesDone dest entries s₁ t)
      (updateExtract cwd (some entries) zipPath destDir) s := by
  unfold updateExtract
  rw [hdest]
  refine Safe.bind ((createDirectoryRecursive_yields dest s).mono fun made s₁ hmade => ?_)
  cases made with
  | false =>
      intro hok
      cases hok
  | true => exact (extractEntries_yields entries s₁).mono fun _ _ h hok => ⟨s₁, hmade.1, h hok⟩

/-- A run that returns `UPDATE_OK` has come through all entries. -/
theorem extract_entriesDone {cwd : Option Bytes} {zipPath destDir : Bytes} {entries : List Entry}
    {es : List FsOutcome} (hdest : extractDest cwd zipPath destDir = some dest)
    (hok : ((fsDevice newMode).run (updateExtract cwd (some entries) zipPath destDir) es s).result = some .ok) :
    ∃ s₁, Grown s s₁ ∧ EntriesDone dest entries s₁
      ((fsDevice newMode).run (updateExtract cwd (some entries) zipPath destDir) es s).final :=
  ((updateExtract_yields hdest entries s).run_sound fun _ _ => trivial).2 _ hok rfl

/-- **A successful extraction is complete exactly when no temporary path takes a file away.** Let no two entries
    have the same path. Whatever was there before and whichever operations failed, if `update_extract` returns
    `UPDATE_OK`, then all files of the archive are in place with their data if and only if no file lies at or
    below `<name>.extracting` of a later file; and the directories are there if none of them lies so. -/
theorem extract_complete_iff (newMode : Nat) (cwd : Option Bytes) (entries : List Entry)
    (zipPath destDir : Bytes) (s : Fs) (es : List FsOutcome)
    (hdest : extractDest cwd zipPath destDir = some dest) (hdistinct : DistinctPaths dest entries)
    (hok : ((fsDevice newMode).run (updateExtract cwd (some entries) zipPath destDir) es s).result = some .ok) :
    ((∀ e ∈ entries, e.isDir = false →
        dataAt ((fsDevice newMode).run (updateExtract cwd (some entries) zipPath destDir) es s).final
          (entryKey dest e) = some e.data) ↔ NoTmpClash dest entries)
      ∧ (DirsClear dest entries → ∀ e ∈ entries, e.isDir = true →
          ((fsDevice newMode).run (updateExtract cwd (some entries) zipPath destDir) es s).final.isDir
            (dirKey dest e) = true) := by
  obtain ⟨s₁, _, hcontent, _, hmade⟩ := extract_entriesDone hdest hok
  refine ⟨?_, fun hclear => hmade hclear⟩
  rw [← complete_iff hdistinct (dataAt s₁)]
  exact forall₂_congr fun e _ => by rw [hcontent]

/-- **A successful extraction lays the package over what was there.** At every path that no temporary path
    takes away, the content is that of the archive's files over the old content: what the updater counts on
    when it extracts into its staging directory. -/
theorem extract_overlays {cwd : Option Bytes} {zipPath destDir : Bytes} {entries : List Entry}
    {es : List FsOutcome} {old : FileTree Bytes Bytes} (hdest : extractDest cwd zipPath destDir = some dest)
    (hdistinct : DistinctPaths dest entries) (hold : ∀ q, old.fileAt q = dataAt s q)
    (hok : ((fsDevice newMode).run (updateExtract cwd (some entries) zipPath destDir) es s).result = some .ok)
    {q : List Bytes} (hq : ∀ e ∈ entries, e.isDir = false → ¬ tmpKey dest e <+: q) :
    dataAt ((fsDevice newMode).run (updateExtract cwd (some entries) zipPath destDir) es s).final q
      = ((packageTree dest entries).overlay old).fileAt q := by
  obtain ⟨s₁, hgrown, hcontent, _, _⟩ := extract_entriesDone hdest hok
  rw [hcontent, hgrown.dataAt_eq, ← hold, contentAfter_of_clear hdistinct hq]
  cases hget : (packageTree dest entries).fileAt q with
  | some d => rw [FileTree.fileAt_overlay_top hget, Option.some_or]
  | none =>
      rw [FileTree.fileAt_overlay_of_get_eq_none (packageTree_get_eq_none_of_fileAt hget), Option.none_or]

/-- Two files, one of them below a directory of its own, beside a directory entry. -/
def sampleArchive : List Entry :=
  [sampleEntry (ascii "a") false, sampleEntry (ascii "b/c") false, sampleEntry (ascii "d/") true]

theorem extract_complete_sample :
    dataAt ((fsDevice 384).run (updateExtract none (some sampleArchive) (ascii "/z.zip") (ascii "/x"))
        (List.replicate 20 okOutcome) []).final [ascii "x", ascii "a"] = some (ascii "a")
      ∧ dataAt ((fsDevice 384).run (updateExtract none (some sampleArchive) (ascii "/z.zip") (ascii "/x"))
        (List.replicate 20 okOutcome) []).final [ascii "x", ascii "b", ascii "c"] = some (ascii "b/c") := by
  have hdest : extractDest none (ascii "/z.zip") (ascii "/x") = some (ascii "/x") := by decide +kernel
  have hfiles := (extract_complete_iff 384 none sampleArchive _ _ [] (List.replicate 20 okOutcome) hdest
    (by unfold DistinctPaths; decide +kernel) (by decide +kernel)).1.mpr (by unfold NoTmpClash; decide +kernel)
  constructor
  · rw [show [ascii "x", ascii "a"] = entryKey (ascii "/x") (sampleEntry (ascii "a") false) by decide +kernel]
    exact hfiles _ (by simp [sampleArchive]) rfl
  · rw [show [ascii "x", ascii "b", ascii "c"] = entryKey (ascii "/x") (sampleEntry (ascii "b/c") false) by
      decide +kernel]
    exact hfiles _ (by simp [sampleArchive]) rfl

def clashingArchive : List Entry := [sampleEntry (ascii "a.extracting") false, sampleEntry (ascii "a") false]

/-- A file system with the empty directory `/x`. -/
def emptyDest : Fs := [([ascii "x"], .dir)]

/-- `a.extracting` is extracted into an empty directory, and the pass for `a` removes it. -/
theorem extract_loses_file :
    (∀ e ∈ clashingArchive, zipEntryNameSafe e.filename = true)
      ∧ DistinctPaths (ascii "/x") clashingArchive
      ∧ ¬ entryKey (ascii "/x") (sampleEntry (ascii "a") false)
          <+: entryKey (ascii "/x") (sampleEntry (ascii "a.extracting") false)
      ∧ ¬ entryKey (ascii "/x") (sampleEntry (ascii "a.extracting") false)
          <+: entryKey (ascii "/x") (sampleEntry (ascii "a") false)
      ∧ ((fsDevice 384).run (updateExtract none (some clashingArchive) (ascii "/z.zip") (ascii "/x"))
          (List.replicate 20 okOutcome) emptyDest).result = some .ok
      ∧ dataAt ((fsDevice 384).run (updateExtract none (some clashingArchive) (ascii "/z.zip") (ascii "/x"))
          (List.replicate 20 okOutcome) emptyDest).final
          (entryKey (ascii "/x") (sampleEntry (ascii "a.extracting") false)) = none := by
  unfold DistinctPaths
  decide +kernel

end LibUpdate
