import LibUpdate.Copy.Merge
import LibUpdate.Extract.Complete

/-!
# `Copy.Modes` — the permission bits of the files that are installed

`update_extract` gives each file the bits that the archive records. The copy makes its files with `fopen`, which
gives a new file those of the process and leaves those of one that is there; no operation of the copy sets them. So
the bits of an installed file are those of the file that was in its place before, unless that was removed
(`run_bits`), and neither those of the archive nor those of the backup are looked at.
-/

namespace LibUpdate

namespace Copy

variable {newMode : Nat} {A : Event Op Outcome Volume → Prop} {overlay soft : Bool} {α : Type} {src dst x : Bytes}
  {S D q : List Bytes} {s₀ s t u : Volume} {names : List Bytes}

/-! ## What the operations do to permission bits -/

/-- The permission bits of the file at a path, if a file is there. -/
def modeAt (t : Fs) (q : List Bytes) : Option Nat := (t.fileAt q).map FileNode.mode

/-- The bits that a file at this path has once it is written: its own, or those of a new file. -/
def bitsAt (newMode : Nat) (t : Fs) (q : List Bytes) : Nat := (modeAt t q).getD newMode

/-- What is removed. -/
def removedOf : (o : Op) → Turn o → Fs → List (List Bytes)
  | .remove path, ok, t => if (stepRemoveOne path ok t).1 then [fsPath path] else []
  | _, _, _ => []

/-- The path that an event removes. -/
def removed (ev : Event Op Outcome Volume) : List (List Bytes) := removedOf ev.op (ev.outcome ev.op) ev.before.1

/-- The operations of the copy: under `platform_fs.c` it makes directories, and nothing else. -/
def Copying : Op → Prop
  | .fs (.mkdir _) => True
  | .fs _ => False
  | _ => True

theorem bitsAt_congr {t u : Fs} {q : List Bytes} (h : u.fileAt q = t.fileAt q) :
    bitsAt newMode u q = bitsAt newMode t q := by
  rw [bitsAt, bitsAt, modeAt, modeAt, h]

/-- What is stored keeps the bits. -/
theorem storeFile_bits (t : Fs) (p : List Bytes) (data : Bytes) (q : List Bytes) :
    bitsAt newMode (storeFile t p data) q = bitsAt newMode t q := by
  by_cases hq : q = p
  · subst hq
    cases hf : t.fileAt q with
    | none =>
        apply bitsAt_congr
        unfold storeFile
        rw [hf]
        exact hf
    | some f =>
        rw [bitsAt, bitsAt, modeAt, modeAt, storeFile_fileAt hf, hf]
        rfl
  · exact bitsAt_congr (fileAt_congr (storeFile_frame data hq))

theorem stepFclose_bits (path : Bytes) (written failed : Option Bytes) (t : Fs) (q : List Bytes) :
    bitsAt newMode (stepFclose path written failed t).2 q = bitsAt newMode t q := by
  unfold stepFclose
  split
  · exact storeFile_bits t _ _ q
  · exact storeFile_bits t _ _ q
  · rfl

/-- `fopen` gives a new file the bits of the process, and leaves those of a file that is there. -/
theorem stepFopenWrite_bits (path : Bytes) (ok : Bool) (t : Fs) (q : List Bytes) :
    bitsAt newMode (stepFopenWrite newMode path ok t).2 q = bitsAt newMode t q := by
  by_cases hq : q = fsPath path
  · subst hq
    unfold stepFopenWrite
    split
    · rw [bitsAt, modeAt, writeFile, fileAt_set]
      rfl
    · rfl
  · exact bitsAt_congr (fileAt_congr (stepFopenWrite_frame hq))

/-- A file that is removed has its bits no longer. -/
theorem stepRemoveOne_bits (path : Bytes) (ok : Bool) (t : Fs) (q : List Bytes) :
    bitsAt newMode (stepRemoveOne path ok t).2 q
      = if q ∈ removedOf (.remove path) ok t then newMode else bitsAt newMode t q := by
  by_cases hremove : (stepRemoveOne path ok t).1 = true
  · rw [show removedOf (.remove path) ok t = [fsPath path] from if_pos hremove]
    by_cases hq : q = fsPath path
    · subst hq
      rw [if_pos List.mem_cons_self]
      unfold stepRemoveOne at hremove ⊢
      split at hremove
      · next hthere =>
        rw [if_pos hthere, bitsAt, modeAt, FileTree.fileAt, FileTree.get_prune, if_pos (beq_self_eq_true _)]
        rfl
      · cases hremove
    · rw [if_neg (mt List.mem_singleton.mp hq)]
      exact bitsAt_congr (fileAt_congr (stepRemoveOne_frame hq))
  · rw [show removedOf (.remove path) ok t = [] from if_neg hremove, if_neg List.not_mem_nil]
    unfold stepRemoveOne at hremove ⊢
    split at hremove
    · exact absurd rfl hremove
    · next hstays => rw [if_neg hstays]

/-- **What one operation of the copy does to the bits.** -/
theorem step_bits {o : Op} (ho : Copying o) (e : Outcome) (s : Volume) (q : List Bytes) :
    bitsAt newMode ((device newMode).step o e s).2.1 q
      = if q ∈ removed ⟨o, e, s⟩ then newMode else bitsAt newMode s.1 q := by
  cases o with
  | fs o =>
      cases o with
      | mkdir path => exact bitsAt_congr ((stepMkdir_grown rfl).1.fileAt_eq q)
      | _ => cases ho
  | opendir path => rfl
  | stat path => rfl
  | fopenRead path => rfl
  | fopenWrite path => exact stepFopenWrite_bits path _ s.1 q
  | fread path block => rfl
  | fwrite path block => exact storeFile_bits s.1 _ _ q
  | fclose path written => exact stepFclose_bits path written _ s.1 q
  | remove path => exact stepRemoveOne_bits path _ s.1 q

/-- **What a program of these operations does to the bits**, whatever fails: a file that was removed on the way gets
    those of a new file, and every other keeps its own. -/
theorem run_bits {p : CopyProg α} (hp : p.Only Copying) (es : List Outcome) (s : Volume) (q : List Bytes) :
    bitsAt newMode ((device newMode).run p es s).final.1 q
      = if q ∈ ((device newMode).run p es s).trace removed then newMode else bitsAt newMode s.1 q := by
  induction hp generalizing es s with
  | ret =>
      rw [Device.run_ret]
      exact (if_neg List.not_mem_nil).symm
  | op ho _ ih =>
      cases es with
      | nil => exact (if_neg List.not_mem_nil).symm
      | cons e es =>
          rw [Device.run_op_cons, ih, step_bits ho]
          split
          · next hlater => exact (if_pos (List.mem_append_right _ hlater)).symm
          · next hlater =>
            split
            · next hnow => exact (if_pos (List.mem_append_left _ hnow)).symm
            · next hnow => exact (if_neg fun h => (List.mem_append.mp h).elim hnow hlater).symm

/-! ## The operations of the programs -/

theorem mkdirAll_only (dirs : List Bytes) : (mkdirAll dirs).Only fun o => Copying (.fs o) := by
  induction dirs with
  | nil => exact .ret
  | cons dir dirs ih =>
      apply Prog.Only.perform trivial
      intro made
      split
      · exact ih
      · exact .ret

theorem createDirectoryRecursive_copying (path : Bytes) : (Copy.fs (createDirectoryRecursive path)).Only Copying := by
  have honly : (createDirectoryRecursive path).Only fun o => Copying (.fs o) := by
    unfold createDirectoryRecursive
    split; · exact .ret
    split; · exact .ret
    exact mkdirAll_only _
  unfold Copy.fs
  apply Prog.Only.embed _ honly
  exact fun _ ho => ho

theorem copyBlocks_copying (src dst : Bytes) (blocks : List Bytes) : (copyBlocks src dst blocks).Only Copying := by
  induction blocks with
  | nil => exact .perform trivial fun _ => .ret
  | cons block blocks ih =>
      apply Prog.Only.perform trivial
      intro failed
      cases failed with
      | none =>
          apply Prog.Only.perform trivial
          intro written
          split
          · exact ih
          · exact .ret
      | some n =>
          cases n with
          | zero => exact .ret
          | succ n => exact .perform trivial fun _ => .ret

theorem copyFileOnce_copying (src dst : Bytes) : (copyFileOnce src dst).Only Copying := by
  apply Prog.Only.perform trivial
  intro opened
  cases opened with
  | none => exact .ret
  | some content =>
      apply Prog.Only.perform trivial
      intro created
      split
      · apply (copyBlocks_copying src dst _).bind
        intro copied
        split
        · exact .perform trivial fun _ => .ret
        · exact .perform trivial fun _ => .perform trivial fun _ => .ret
      · exact .ret

theorem copyFileAttempts_copying (src dst : Bytes) (n : Nat) : (copyFileAttempts src dst n).Only Copying := by
  induction n with
  | zero => exact .ret
  | succ n ih =>
      apply (copyFileOnce_copying src dst).bind
      intro copied
      split
      · exact .ret
      · exact .perform trivial fun _ => ih

theorem copyEntry_copying {copyDir : Bytes → Bytes → CopyProg Bool} (hdir : ∀ src dst, (copyDir src dst).Only Copying)
    (src dst x : Bytes) : (copyEntry copyDir overlay soft src dst x).Only Copying := by
  unfold copyEntry
  split
  · exact .ret
  · apply Prog.Only.perform trivial
    intro isDir
    split
    · split
      · exact .ret
      · exact hdir _ _
    · split
      · exact .ret
      · exact (copyFileAttempts_copying _ _ 8).bind fun _ => .ret

theorem copyEntries_copying {copyDir : Bytes → Bytes → CopyProg Bool}
    (hdir : ∀ src dst, (copyDir src dst).Only Copying) (src dst : Bytes) (names : List Bytes) :
    (copyEntries copyDir overlay soft src dst names).Only Copying := by
  induction names with
  | nil => exact .ret
  | cons x names ih =>
      unfold copyEntries
      split
      · apply (copyEntry_copying hdir src dst x).bind
        intro done
        split
        · exact ih
        · exact .ret
      · exact ih

theorem copyTreeAt_copying (depth : Nat) (src dst : Bytes) : (copyTreeAt overlay soft depth src dst).Only Copying := by
  induction depth generalizing src dst with
  | zero => exact .ret
  | succ depth ih =>
      apply (createDirectoryRecursive_copying dst).bind
      intro made
      split
      · apply Prog.Only.perform trivial
        intro listing
        cases listing with
        | none => exact .ret
        | some listing => exact (copyEntries_copying ih src dst listing.1).bind fun _ => .ret
      · exact .ret

theorem copyTreeWith_copying (src dst : Bytes) : (copyTreeWith overlay soft src dst).Only Copying := by
  have hpasses : ∀ n, (copyPasses overlay soft src dst n).Only Copying := by
    intro n
    induction n with
    | zero => exact .ret
    | succ n ih =>
        apply (copyTreeAt_copying pathMax src dst).bind
        intro copied
        split
        · exact .ret
        · exact ih
  unfold copyTreeWith
  split
  · exact .ret
  · exact hpasses 8

/-- **The merge sets no permission bits.** -/
theorem updateMergeOverlayInstall_copying (installDir backupDir stagingDir : Bytes) :
    (updateMergeOverlayInstall installDir backupDir stagingDir).Only Copying := by
  have hrecreate : (updateRecreateInstallFromBackup installDir backupDir).Only Copying := by
    unfold updateRecreateInstallFromBackup
    split
    · exact .ret
    · apply (createDirectoryRecursive_copying installDir).bind
      intro made
      split
      · apply (copyTreeWith_copying backupDir installDir).bind
        intro copied
        split
        · exact .ret
        · exact .ret
      · exact .ret
  unfold updateMergeOverlayInstall
  split
  · exact .ret
  · apply hrecreate.bind
    intro recreated
    split
    · apply (copyTreeWith_copying stagingDir installDir).bind
      intro copied
      split
      · exact .ret
      · exact .ret
    · exact .ret

/-! ## The files that are there -/

/-- Where a file of the source comes to: it gets its name. -/
def installedPath (overlay : Bool) : List Bytes → List Bytes
  | [] => []
  | [x] => [leafOf overlay x]
  | x :: y :: r => x :: installedPath overlay (y :: r)

/-- From `s` to `t` no file is lost. What a merge has installed stays until the program that replaces it is written.
    -/
def Stays (s t : Volume) : Prop := ∀ q, (s.1.fileAt q).isSome → (t.1.fileAt q).isSome

theorem Stays.refl (s : Volume) : Stays s s := fun _ => id

theorem Stays.trans (h : Stays s t) (h' : Stays t u) : Stays s u := fun q hq => h' q (h q hq)

/-- The files of the entries under these names are installed, and none is lost: the invariant of the loop over
    `readdir`. -/
structure NamesInstalled (overlay : Bool) (S D : List Bytes) (s₀ : Volume) (names : List Bytes) (s t : Volume) :
    Prop where
  stays : Stays s t
  files : ∀ x ∈ names, ∀ r, (s₀.1.fileAt (S ++ x :: r)).isSome →
    (t.1.fileAt (D ++ installedPath overlay (x :: r))).isSome

/-- The files of the tree are installed: a file is in the place of each, and no file that was there before is lost.
    -/
structure TreeInstalled (overlay : Bool) (S D : List Bytes) (s₀ s t : Volume) : Prop where
  source : s₀.1.isDir S = true
  stays : Stays s t
  files : ∀ q, (s₀.1.fileAt (S ++ q)).isSome → (t.1.fileAt (D ++ installedPath overlay q)).isSome

/-- On the way to a file there are directories. -/
theorem isDir_of_file_below {y : Bytes} {r : List Bytes} (h : (s.1.fileAt (S ++ x :: y :: r)).isSome) :
    s.1.isDir (S ++ [x]) = true := by
  obtain ⟨f, hf⟩ := Option.isSome_iff_exists.mp h
  rw [List.append_cons] at hf
  exact s.2.tree.isDir_of_below (List.cons_ne_nil y r) (FileTree.get_of_fileAt hf)

theorem not_file_of_isDir {p : List Bytes} (hdir : s.1.isDir p = true) : ¬ (s.1.fileAt p).isSome := by
  rw [FileTree.fileAt_eq_none_of_isDir s.2.tree hdir]
  exact Bool.false_ne_true

theorem FileEnds.installed {tr : List (List Bytes × Bool)} (hkept : Kept S s₀ s)
    (h : FileEnds (S ++ [x]) (D ++ [leafOf overlay x]) s true tr t) : NamesInstalled overlay S D s₀ [x] s t := by
  obtain ⟨data, part, hsource, hpart, _⟩ := h.copied rfl
  have hthere : (t.1.fileAt (D ++ [leafOf overlay x])).isSome := fileAt_isSome_of_dataAt hpart
  constructor
  · intro q hq
    by_cases heq : q = D ++ [leafOf overlay x]
    · rwa [heq]
    · rwa [h.same.fileAt_eq heq]
  · intro y hy r hr
    obtain rfl := List.mem_singleton.mp hy
    cases r with
    | nil => exact hthere
    | cons z r =>
        -- nothing lies below a file
        have hfile : (s₀.1.fileAt (S ++ [y])).isSome := by
          rw [dataAt_congr (hkept _ (List.prefix_append _ _))] at hsource
          exact fileAt_isSome_of_dataAt hsource
        exact absurd hfile (not_file_of_isDir (isDir_of_file_below hr))

/-- A directory that is installed is an entry that is installed. -/
theorem TreeInstalled.entry (h : TreeInstalled overlay (S ++ [x]) (D ++ [x]) s₀ s t) :
    NamesInstalled overlay S D s₀ [x] s t := by
  refine ⟨h.stays, ?_⟩
  intro y hy r hr
  obtain rfl := List.mem_singleton.mp hy
  cases r with
  | nil => exact absurd hr (not_file_of_isDir h.source)
  | cons z r =>
      have hfiles := h.files (z :: r)
      rw [← List.append_cons, ← List.append_cons] at hfiles
      exact hfiles hr

/-- A directory from its entries. -/
theorem NamesInstalled.tree (hgrown : Grown s.1 t.1) (hdir : s₀.1.isDir S = true)
    (hall : ∀ x, (s₀.1.get (S ++ [x])).isSome → x ∈ names) (h : NamesInstalled overlay S D s₀ names t u) :
    TreeInstalled overlay S D s₀ s u := by
  refine ⟨hdir, ?_, ?_⟩
  · intro q hq
    rw [← hgrown.fileAt_eq] at hq
    exact h.stays q hq
  · intro q hq
    cases q with
    | nil =>
        rw [List.append_nil] at hq
        exact absurd hq (not_file_of_isDir hdir)
    | cons y r =>
        apply h.files y _ r hq
        apply hall
        cases r with
        | nil =>
            obtain ⟨f, hf⟩ := Option.isSome_iff_exists.mp hq
            exact FileTree.isSome_of_fileAt hf
        | cons z r => exact FileTree.isSome_of_isDir (isDir_of_file_below hq)

/-- **The files are installed** by a walk that succeeds. -/
theorem copyTreeAt_installed (depth : Nat) (src dst : Bytes) (hapart : Apart src dst) (s : Volume)
    (hkept : Kept (fsPath src) s₀ s) :
    Copies newMode A (copyTreeAt overlay false depth src dst)
      (fun ok _ t => ok = true → TreeInstalled overlay (fsPath src) (fsPath dst) s₀ s t) s := by
  apply copyTreeAt_rule s₀ (fun S D s _ t => TreeInstalled overlay S D s₀ s t)
    (fun S D xs s _ t => NamesInstalled overlay S D s₀ xs s t) _ _ _ _ _ depth src dst hapart s hkept
  · intro S D x s tr t hkept hends
    exact hends.installed hkept
  · intro S D x s _ t htree
    exact htree.entry
  · intro S D s
    refine ⟨.refl s, ?_⟩
    intro x hx
    cases hx
  · intro S D x xs s t u _ _ _ _ hx hxs
    refine ⟨hx.stays.trans hxs.stays, ?_⟩
    intro y hy r hr
    rcases List.mem_cons.mp hy with rfl | hy
    · exact hxs.stays _ (hx.files y List.mem_cons_self r hr)
    · exact hxs.files y hy r hr
  · intro S D xs s t _ u hgrown hdir hall hxs
    exact hxs.tree hgrown hdir hall

/-- The frame of the functions over `copy_tree_posix`. -/
theorem copyTreeWith_within (hapart : Apart src dst) (s : Volume) :
    Copies newMode A (copyTreeWith overlay soft src dst) (fun _ _ t => Within dst s t) s := by
  have hcopies : Copies newMode A (copyTreeWith overlay soft src dst)
      (fun status _ t => Within dst s t ∧ (status = .ok → True)) s := by
    apply copyTreeWith_copies (fun _ _ _ _ => trivial) _ s (.refl dst s)
    intro s' hs'
    exact (copyTreeAt_within pathMax src dst hapart s').mono fun _ _ t ht => ⟨hs'.trans ht, fun _ => trivial⟩
  exact hcopies.mono fun _ _ _ h => h.1

/-- The files of `s₀` under the source are at the destination. -/
def Installed (overlay : Bool) (src dst : Bytes) (s₀ t : Volume) : Prop :=
  ∀ q, (s₀.1.fileAt (fsPath src ++ q)).isSome → (t.1.fileAt (fsPath dst ++ installedPath overlay q)).isSome

/-- **The files are installed** by a copy that is reported. -/
theorem copyTreeWith_installed (hapart : Apart src dst) (s : Volume) (hkept : Kept (fsPath src) s₀ s) :
    Copies newMode A (copyTreeWith overlay false src dst)
      (fun status _ t => status = .ok → Installed overlay src dst s₀ t) s := by
  have hcopies : Copies newMode A (copyTreeWith overlay false src dst)
      (fun status _ t => Kept (fsPath src) s₀ t ∧ (status = .ok → Installed overlay src dst s₀ t)) s := by
    apply copyTreeWith_copies (fun _ _ _ h => h) _ s hkept
    intro s' hs'
    apply ((copyTreeAt_installed pathMax src dst hapart s' hs').both
      (copyTreeAt_within pathMax src dst hapart s')).mono
    rintro ok tr t ⟨hinstalled, hwithin⟩
    exact ⟨hs'.trans (hwithin.kept hapart), fun hok => (hinstalled hok).files⟩
  exact hcopies.mono fun _ _ _ h => h.2

/-- **The staged files are installed** by a merge that is reported. -/
theorem updateMergeOverlayInstall_installed {installDir backupDir stagingDir : Bytes}
    (hbackup : Apart backupDir installDir) (hstaging : Apart stagingDir installDir) (s : Volume) :
    Copies newMode A (updateMergeOverlayInstall installDir backupDir stagingDir)
      (fun status _ t => status = .ok → Installed true stagingDir installDir s t) s := by
  have hrecreate : Copies newMode A (updateRecreateInstallFromBackup installDir backupDir)
      (fun _ _ t => Within installDir s t) s := by
    unfold updateRecreateInstallFromBackup
    split
    · exact .refl installDir s
    · apply (fs_copies (c := anyContract) (fun _ _ _ _ => trivial)
        (createDirectoryRecursive_madeWay installDir s.1)).seq
      rintro made tr t ⟨rfl, hmade⟩
      have hway : Within installDir s t := within_of_madeWay hmade
      split
      · apply (copyTreeWith_within hbackup t).seq
        intro status tr u hu
        split
        · exact hway.trans hu
        · exact hway.trans hu
      · exact hway
  unfold updateMergeOverlayInstall
  split
  · intro hok
    cases hok
  apply hrecreate.seq
  intro status tr t ht
  split
  · apply (copyTreeWith_installed hstaging t (ht.kept hstaging)).seq
    intro status tr u hu
    split
    · next hok => exact fun _ => hu hok
    · intro hok
      cases hok
  · intro hok
    cases hok

end Copy

open Copy (Apart Outcome device modeAt bitsAt removed installedPath Installed)

/-! ## The package that is staged -/

/-- Which entry has written the file at `q` after a successful pass for `e`, where it was `w`: the pass for a file also
    takes away what is at its temporary path. -/
def entryWriter (dest : Bytes) (e : Entry) (q : List Bytes) (w : Option Entry) : Option Entry :=
  if e.isDir then w
  else if q = entryKey dest e then some e
  else if tmpKey dest e <+: q then none
  else w

/-- The entry that has written the file at `q` after successful passes for the entries. -/
def writerAfter (dest : Bytes) (entries : List Entry) (q : List Bytes) : Option Entry :=
  entries.foldl (fun w e => entryWriter dest e q w) none

/-- What the last entry that writes a path has written is the content there. Every pass of the entry loop keeps it.
    -/
def Wrote (w : Option Entry) (v : Option Bytes) : Prop := ∀ e, w = some e → v = some e.data

theorem Wrote.pass {w : Option Entry} {v : Option Bytes} (h : Wrote w v) (dest : Bytes) (a : Entry) (q : List Bytes) :
    Wrote (entryWriter dest a q w) (entryEffect dest a q v) := by
  unfold entryWriter entryEffect fileEffect
  split
  · exact h
  split
  · intro e he
    exact congrArg (Option.map Entry.data) he
  split
  · intro e he
    cases he
  · exact h

/-- What an entry has written is there. -/
theorem contentAfter_of_writer {dest : Bytes} {entries : List Entry} {q : List Bytes} {e : Entry}
    (h : writerAfter dest entries q = some e) (v : Option Bytes) : contentAfter dest entries q v = some e.data := by
  have hloop : ∀ (entries : List Entry) w v, Wrote w v →
      Wrote (entries.foldl (fun w e => entryWriter dest e q w) w) (contentAfter dest entries q v) := by
    intro entries
    induction entries with
    | nil => exact fun w v hw => hw
    | cons a as ih => exact fun w v hw => ih _ _ (hw.pass dest a q)
  have hnone : Wrote none v := by
    intro e he
    cases he
  exact hloop entries none v hnone e h

/-! ## The pipeline -/

/-- A package is extracted into the staging directory and merged with the backup. -/
structure Pipeline where
  /-- The permission bits of a new file. -/
  newMode : Nat
  cwd : Option Bytes
  entries : List Entry
  zipPath : Bytes
  installDir : Bytes
  backupDir : Bytes
  stagingDir : Bytes
  /-- What is there before. -/
  disk : Volume
  /-- How the operations of the extraction turn out. -/
  extracting : List FsOutcome
  /-- How those of the merge turn out. -/
  merging : List Outcome

namespace Pipeline

def extraction (p : Pipeline) : Run FsOp FsOutcome Fs UpdateStatus :=
  (fsDevice p.newMode).run (updateExtract p.cwd (some p.entries) p.zipPath p.stagingDir) p.extracting p.disk.1

/-- The disk between the two calls. -/
def extracted (p : Pipeline) : Volume := ⟨p.extraction.final, run_posix _ _ p.disk.2⟩

def merge (p : Pipeline) : Run Copy.Op Outcome Volume UpdateStatus :=
  (device p.newMode).run (updateMergeOverlayInstall p.installDir p.backupDir p.stagingDir) p.merging p.extracted

/-- The file that is installed at a path in the end, after the extraction and the merge: its permission bits are
    compared with those of the entry. -/
def installedAt (p : Pipeline) (q : List Bytes) : Option FileNode := p.merge.final.1.fileAt (fsPath p.installDir ++ q)

/-- The bits that a file had in the install directory before the merge; those of a new file, if none was there or the
    merge has removed it. -/
def bitsBefore (p : Pipeline) (q : List Bytes) : Nat :=
  if fsPath p.installDir ++ q ∈ p.merge.trace removed then p.newMode
  else bitsAt p.newMode p.extracted.1 (fsPath p.installDir ++ q)

variable {p : Pipeline} {q : List Bytes}

/-- What an entry has written is there after a successful extraction. -/
theorem extracted_isSome {dest : Bytes} {e : Entry} (hdest : extractDest p.cwd p.zipPath p.stagingDir = some dest)
    (hok : p.extraction.result = some .ok) (hq : writerAfter dest p.entries q = some e) :
    (p.extracted.1.fileAt q).isSome := by
  obtain ⟨s₁, _, hdone⟩ := extract_entriesDone hdest hok
  have hdata : dataAt p.extracted.1 q = contentAfter dest p.entries q (dataAt s₁ q) := hdone.content q
  rw [contentAfter_of_writer hq] at hdata
  exact fileAt_isSome_of_dataAt hdata

/-- **The bits of the installed files**, whatever fails: nothing of the package or the backup is in them. -/
theorem mode_installed {f : FileNode} (h : p.installedAt q = some f) : f.mode = p.bitsBefore q := by
  have hmode : modeAt p.merge.final.1 (fsPath p.installDir ++ q) = some f.mode := congrArg (Option.map FileNode.mode) h
  have hbits : bitsAt p.newMode p.merge.final.1 (fsPath p.installDir ++ q) = p.bitsBefore q :=
    Copy.run_bits (Copy.updateMergeOverlayInstall_copying p.installDir p.backupDir p.stagingDir) _ _ _
  rw [← hbits, bitsAt, hmode]
  rfl

end Pipeline

/-- **An installed file has the permission bits recorded for it exactly where the file in its place had them.** Let the
    extraction and the merge have been reported to be complete, whatever has failed on the way. An installed file that
    comes from the package has the bits of its entry in the archive, and one that comes from the backup those that it
    has there, if and only if they are the bits that the file had in the install directory before, or, where there was
    none or the merge has removed it, those of a new file. Where the trees lie apart, all files of the package that
    are staged are installed. -/
theorem updateMergeOverlayInstall_modes_iff (p : Pipeline) (dest : Bytes)
    (hdest : extractDest p.cwd p.zipPath p.stagingDir = some dest)
    (hextracted : p.extraction.result = some .ok) (hmerged : p.merge.result = some .ok) :
    (∀ q e f, writerAfter dest p.entries (fsPath p.stagingDir ++ q) = some e →
        p.installedAt (installedPath true q) = some f →
        (f.mode = entryMode e ↔ entryMode e = p.bitsBefore (installedPath true q)))
    ∧ (∀ q b f, p.extracted.1.fileAt (fsPath p.backupDir ++ q) = some b → p.installedAt q = some f →
        (f.mode = b.mode ↔ b.mode = p.bitsBefore q))
    ∧ (Apart p.backupDir p.installDir → Apart p.stagingDir p.installDir →
        ∀ q e, writerAfter dest p.entries (fsPath p.stagingDir ++ q) = some e →
          (p.installedAt (installedPath true q)).isSome) := by
  refine ⟨?_, ?_, ?_⟩
  · intro q e f _ hf
    rw [Pipeline.mode_installed hf]
    exact eq_comm
  · intro q b f _ hf
    rw [Pipeline.mode_installed hf]
    exact eq_comm
  · intro hbackup hstaging q e he
    have hall := (Copy.updateMergeOverlayInstall_installed (A := fun _ => True) hbackup hstaging p.extracted).sound
      (fun _ _ => trivial) hmerged
    exact hall rfl q (Pipeline.extracted_isSome hdest hextracted he)

/-! ### Two programs -/

/-- A package with the program `a`, and a disk with a backup in `/old`; nothing fails. -/
def samplePipeline (disk : Volume) : Pipeline where
  newMode := 0o644
  cwd := none
  entries := [⟨true, 0, ascii "a", false, 0o100755 <<< 16, ascii "new"⟩]
  zipPath := ascii "/z"
  installDir := ascii "/i"
  backupDir := ascii "/old"
  stagingDir := ascii "/s"
  disk
  extracting := List.replicate 20 okOutcome
  merging := List.replicate 60 nothingFailing

/-- The backup has the program `b`. -/
def backupVolume : Volume :=
  (Volume.empty.put (ascii "/old") .dir (by decide +kernel)).put (ascii "/old/b") (.file ⟨ascii "old", 0o755⟩)
    (by decide +kernel)

/-- The program `a` is installed already, too. -/
def installedVolume : Volume :=
  (backupVolume.put (ascii "/i") .dir (by decide +kernel)).put (ascii "/i/a") (.file ⟨ascii "old", 0o755⟩)
    (by decide +kernel)

/-- Over the program that is installed the new one can be executed. -/
theorem updateMergeOverlayInstall_modes_sample :
    ∃ f, (samplePipeline installedVolume).installedAt [ascii "a"] = some f ∧ f.mode = 0o755 := by
  obtain ⟨hmodes, _, hinstalled⟩ := updateMergeOverlayInstall_modes_iff (samplePipeline installedVolume) (ascii "/s")
    (by decide +kernel) (by decide +kernel) (by decide +kernel)
  have hwriter : writerAfter (ascii "/s") (samplePipeline installedVolume).entries (fsPath (ascii "/s") ++ [ascii "a"])
      = some ⟨true, 0, ascii "a", false, 0o100755 <<< 16, ascii "new"⟩ := by decide +kernel
  have hpath : installedPath true [ascii "a"] = [ascii "a"] := by decide +kernel
  obtain ⟨f, hf⟩ := Option.isSome_iff_exists.mp
    (hinstalled ⟨by decide +kernel, by decide +kernel⟩ ⟨by decide +kernel, by decide +kernel⟩ [ascii "a"] _ hwriter)
  have hmode : f.mode = 0o755 := (hmodes [ascii "a"] _ f hwriter hf).mpr (by decide +kernel)
  rw [hpath] at hf
  exact ⟨f, hf, hmode⟩

/-- Where nothing is installed, neither the new program nor that of the backup can be executed. -/
theorem updateMergeOverlayInstall_loses_modes :
    (samplePipeline backupVolume).extraction.result = some .ok ∧ (samplePipeline backupVolume).merge.result = some .ok
      ∧ (samplePipeline backupVolume).entries.map entryMode = [0o755]
      ∧ (samplePipeline backupVolume).installedAt [ascii "a"] = some ⟨ascii "new", 0o644⟩
      ∧ backupVolume.1.fileAt [ascii "old", ascii "b"] = some ⟨ascii "old", 0o755⟩
      ∧ (samplePipeline backupVolume).installedAt [ascii "b"] = some ⟨ascii "old", 0o644⟩ := by
  refine ⟨?_, ?_, ?_, ?_, ?_, ?_⟩
  · decide +kernel
  · decide +kernel
  · decide +kernel
  · decide +kernel
  · decide +kernel
  · decide +kernel

end LibUpdate
