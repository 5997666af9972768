import LibUpdate.Copy.Complete

/-!
# `Copy.Merge` — the install tree from the backup and the staged package

`update_merge_overlay_install` copies the backup over what is in the install directory, and the staging directory
over that, with other names for the updaters. Where the trees fit together and nothing fails, the content of the
install directory is that of the staged files, over that of the backup, over what was there.
-/

namespace LibUpdate

namespace Copy

variable {newMode : Nat} {overlay : Bool} {src dst : Bytes} {s₀ s t u : Volume}

/-! ## Laying one tree over another -/

/-- From `s` to `t` the files of the source have come over what was at the destination. -/
structure Overlaid (overlay : Bool) (src dst : Bytes) (s₀ s t : Volume) : Prop where
  within : Within dst s t
  dirs : DirsFrom (fsPath src) (fsPath dst) s₀ s t
  files : ∀ q, dataAt t.1 (fsPath dst ++ q) = (copyOf overlay s₀ (fsPath src) q).or (dataAt s.1 (fsPath dst ++ q))

/-- Where all was stored, a copy is what was copied. -/
theorem CopiedAt.all_stored {v old new : Option Bytes} {stored : Option Bool} (h : CopiedAt v old new stored)
    (hall : ∀ b, stored = some b → b = true) : new = v.or old := by
  cases v with
  | none => exact h.1
  | some data =>
      obtain ⟨part, rfl, hstored⟩ := h
      rw [eq_of_beq (hall _ hstored)]
      rfl

theorem Clear.src_ne_nil (h : Clear overlay src dst s₀ s) : src ≠ [] := by
  rintro rfl
  exact h.apart.here List.nil_prefix

/-- **A tree is laid over another**, where nothing fails and nothing stands in its way. -/
theorem copyTreeWith_overlaid (hclear : Clear overlay src dst s₀ s)
    (hfree : ∀ d ∈ wayTo dst, s.1.fileAt (fsPath d) = none) :
    Copies newMode fine (copyTreeWith overlay false src dst)
      (fun status _ t => status = .ok ∧ Overlaid overlay src dst s₀ s t) s := by
  have hcomplete : Copies newMode fine (copyTreeAt overlay false pathMax src dst)
      (fun ok _ t => ok = true ∧ DirsFrom (fsPath src) (fsPath dst) s₀ s t) s :=
    copyTreeAt_complete pathMax src dst s hclear hfree (Nat.le_add_right _ _)
  have hcopied : Copies newMode fine (copyTreeAt overlay false pathMax src dst)
      (fun ok tr t => ok = true → TreeCopied overlay (fsPath src) (fsPath dst) s₀ s t tr) s :=
    copyTreeAt_copied pathMax src dst hclear.apart hclear.distinct s hclear.kept
  have hstored := Leaves.trace_all (d := device newMode) closed_of_fine (copyTreeAt overlay false pathMax src dst) s
  have hwithin : Copies newMode fine (copyTreeAt overlay false pathMax src dst) (fun _ _ t => Within dst s t) s :=
    copyTreeAt_within pathMax src dst hclear.apart s
  unfold copyTreeWith
  rw [if_neg (by simp [hclear.src_ne_nil, hclear.dst_ne_nil])]
  apply ((hcomplete.both hcopied).both (hstored.both hwithin)).seq
  rintro ok tr t ⟨⟨⟨rfl, hdirs⟩, htree⟩, hall, hwithin⟩
  refine ⟨rfl, hwithin, hdirs, ?_⟩
  intro q
  apply ((htree rfl).inside q).all_stored
  intro b hb
  exact hall _ (mem_of_lastClose hb)

/-! ## The install tree -/

/-- The content of `overlay(S)`: the files of the staging tree under the names that they get. -/
def stagedAt (s : Volume) (stagingDir : Bytes) (q : List Bytes) : Option Bytes := copyOf true s (fsPath stagingDir) q

/-- The trees that are merged: the roots lie apart, the paths are short, the staged names are distinct, and no path
    is a file in one of the trees and a directory in another. -/
structure Mergeable (installDir backupDir stagingDir : Bytes) (s : Volume) : Prop where
  /-- The way to the install directory leads through nothing below it, and no file is on it. -/
  straight : Straight installDir
  free : ∀ d ∈ wayTo installDir, s.1.fileAt (fsPath d) = none
  backupApart : Apart backupDir installDir
  stagingApart : Apart stagingDir installDir
  backup : s.1.isDir (fsPath backupDir) = true
  staging : s.1.isDir (fsPath stagingDir) = true
  backupShort : Short false backupDir installDir s
  stagingShort : Short true stagingDir installDir s
  distinct : s.1.Distinct (leafOf true) (fsPath stagingDir)
  kinds : ∀ q, (stagedAt s stagingDir q).isSome ∨ (dataAt s.1 (fsPath backupDir ++ q)).isSome
      ∨ (dataAt s.1 (fsPath installDir ++ q)).isSome →
    s.1.isDir (fsPath stagingDir ++ q) = false ∧ s.1.isDir (fsPath backupDir ++ q) = false
      ∧ s.1.isDir (fsPath installDir ++ q) = false

/-- What a merge leaves: backup and staging tree as they were, and in the install directory the staged files over
    those of the backup over those that were there. -/
structure Merged (installDir backupDir stagingDir : Bytes) (s t : Volume) : Prop where
  backup : Kept (fsPath backupDir) s t
  staging : Kept (fsPath stagingDir) s t
  files : ∀ q, dataAt t.1 (fsPath installDir ++ q) = (stagedAt s stagingDir q).or
    ((dataAt s.1 (fsPath backupDir ++ q)).or (dataAt s.1 (fsPath installDir ++ q)))
  /-- An updater of the backup is not overwritten. -/
  updater : ∀ way x data, stagedName x ≠ x → dataAt s.1 (fsPath backupDir ++ (way ++ [x])) = some data →
    dataAt t.1 (fsPath installDir ++ (way ++ [x])) = some data

variable {installDir backupDir stagingDir : Bytes}

/-- No file has been put over a directory, and no directory over a file. -/
theorem fileAt_eq_none_of_dataAt {t : Fs} {q : List Bytes} (h : dataAt t q = none) : t.fileAt q = none :=
  Option.map_eq_none_iff.mp h

/-- **The backup is laid over the install directory**, which is made where it was not there. -/
theorem Mergeable.backup_clear (h : Mergeable installDir backupDir stagingDir s)
    (hmade : MadeWay (wayTo installDir) s.1 true t.1) : Clear false backupDir installDir s t := by
  have hdata : ∀ {q}, s.1.isDir (fsPath backupDir ++ q) = true → s.1.fileAt (fsPath installDir ++ q) = none := by
    intro q hq
    cases hf : s.1.fileAt (fsPath installDir ++ q) with
    | none => rfl
    | some f =>
        have hkinds := (h.kinds q (Or.inr (Or.inr (by rw [dataAt, hf]; rfl)))).2.1
        rw [hq] at hkinds
        cases hkinds
  refine ⟨h.backupApart, h.straight, FileTree.distinct_id s.1 _, (within_of_madeWay hmade).kept h.backupApart, h.backup,
    ?_, h.backupShort⟩
  intro q
  cases q with
  | nil =>
      refine ⟨fun hsome => (by cases hsome), fun _ => ?_⟩
      rw [hmade.1.grown.fileAt_eq]
      exact hdata (by rw [List.append_nil]; exact h.backup)
  | cons y r =>
      apply FitsAt.made h.straight hmade
      refine ⟨fun hsome => ?_, hdata⟩
      rw [copyOf_own_names h.backup] at hsome
      exact (h.kinds _ (Or.inr (Or.inl hsome))).2.2

theorem Mergeable.install_ne_nil (h : Mergeable installDir backupDir stagingDir s) : installDir ≠ [] := by
  rintro rfl
  exact h.backupApart.above List.nil_prefix

/-- What the first half leaves: the backup over what was there, and no file on the way. -/
structure Recreated (installDir backupDir : Bytes) (s t : Volume) : Prop where
  within : Within installDir s t
  dirs : DirsFrom (fsPath backupDir) (fsPath installDir) s s t
  files : ∀ q, dataAt t.1 (fsPath installDir ++ q)
    = (dataAt s.1 (fsPath backupDir ++ q)).or (dataAt s.1 (fsPath installDir ++ q))
  free : ∀ d ∈ wayTo installDir, t.1.fileAt (fsPath d) = none

theorem Mergeable.recreated (h : Mergeable installDir backupDir stagingDir s)
    (hmade : MadeWay (wayTo installDir) s.1 true t.1) (hover : Overlaid false backupDir installDir s t u) :
    Recreated installDir backupDir s u := by
  have hfiles : ∀ q, dataAt u.1 (fsPath installDir ++ q)
      = (dataAt s.1 (fsPath backupDir ++ q)).or (dataAt s.1 (fsPath installDir ++ q)) := by
    intro q
    rw [hover.files, copyOf_own_names h.backup, hmade.1.grown.dataAt_eq]
  refine ⟨(within_of_madeWay hmade).trans hover.within,
    (dirsFrom_of_madeWay h.straight h.backup hmade).trans hover.dirs, hfiles, ?_⟩
  intro d hd
  by_cases hroot : fsPath installDir <+: fsPath d
  · -- the install directory itself: it holds no content, for the backup is a directory
    have heq : fsPath installDir = fsPath d := (h.straight d hd hroot).symm
    have hdata := hfiles []
    rw [List.append_nil, List.append_nil, heq] at hdata
    apply fileAt_eq_none_of_dataAt
    rw [hdata, dataAt, FileTree.fileAt_eq_none_of_isDir s.2.tree h.backup, dataAt, h.free d hd]
    rfl
  · rcases hover.within (fsPath d) hroot with hsame | ⟨_, _, _, hdir⟩
    · rw [fileAt_congr hsame]
      exact FileTree.fileAt_eq_none_of_isDir t.2.tree (hmade.2 rfl d hd)
    · exact FileTree.fileAt_eq_none_of_isDir u.2.tree (FileTree.isDir_iff.mpr (Or.inr hdir))

/-- **The staged files are laid over that.** -/
theorem Mergeable.staging_clear (h : Mergeable installDir backupDir stagingDir s)
    (hrec : Recreated installDir backupDir s t) : Clear true stagingDir installDir s t := by
  refine ⟨h.stagingApart, h.straight, h.distinct, hrec.within.kept h.stagingApart, h.staging, ?_, h.stagingShort⟩
  intro q
  constructor
  · intro hsome
    obtain ⟨_, hbackup, hinstall⟩ := h.kinds q (Or.inl hsome)
    rw [Bool.eq_false_iff]
    intro hdir
    rcases hrec.dirs q hdir with hold | hnew
    · rw [hinstall] at hold
      cases hold
    · rw [hbackup] at hnew
      cases hnew
  · intro hdir
    apply fileAt_eq_none_of_dataAt
    rw [hrec.files]
    have hnone : ∀ {v : Option Bytes}, (v.isSome → s.1.isDir (fsPath stagingDir ++ q) = false) → v = none := by
      intro v hv
      cases v with
      | none => rfl
      | some data =>
          rw [hv rfl] at hdir
          cases hdir
    rw [hnone fun hsome => (h.kinds q (Or.inr (Or.inl hsome))).1,
      hnone fun hsome => (h.kinds q (Or.inr (Or.inr hsome))).1]
    rfl

/-- An updater gets another name, which is none of an updater. -/
theorem stagedName_idem (x : Bytes) : stagedName (stagedName x) = stagedName x := by
  have hexe : stagedName (ascii "updater_new.exe") = ascii "updater_new.exe" := by decide +kernel
  have hnew : stagedName (ascii "updater_new") = ascii "updater_new" := by decide +kernel
  by_cases hx : strIeqAscii x (ascii "updater.exe") = true
  · rw [show stagedName x = ascii "updater_new.exe" from if_pos hx, hexe]
  · by_cases hx' : strIeqAscii x (ascii "updater") = true
    · rw [show stagedName x = ascii "updater_new" from (if_neg hx).trans (if_pos hx'), hnew]
    · have hsame : stagedName x = x := (if_neg hx).trans (if_neg hx')
      rw [hsame, hsame]

/-- Nothing is staged under the name of an updater. -/
theorem stagedAt_updater {way : List Bytes} {x : Bytes} (hx : stagedName x ≠ x) :
    stagedAt s stagingDir (way ++ [x]) = none := by
  rw [← Option.isNone_iff_eq_none, ← Option.not_isSome, Bool.not_eq_true', Bool.eq_false_iff]
  intro hsome
  obtain ⟨way', x', heq, _⟩ := copyOf_isSome hsome
  have hlast : x = stagedName x' := (List.cons.inj (List.append_inj' heq rfl).2).1
  rw [hlast, stagedName_idem] at hx
  exact hx rfl

theorem Mergeable.merged (h : Mergeable installDir backupDir stagingDir s)
    (hrec : Recreated installDir backupDir s t) (hover : Overlaid true stagingDir installDir s t u) :
    Merged installDir backupDir stagingDir s u := by
  have hwithin := hrec.within.trans hover.within
  have hfiles : ∀ q, dataAt u.1 (fsPath installDir ++ q) = (stagedAt s stagingDir q).or
      ((dataAt s.1 (fsPath backupDir ++ q)).or (dataAt s.1 (fsPath installDir ++ q))) := by
    intro q
    rw [hover.files, hrec.files]
    rfl
  refine ⟨hwithin.kept h.backupApart, hwithin.kept h.stagingApart, hfiles, ?_⟩
  intro way x data hx hdata
  rw [hfiles, stagedAt_updater hx, hdata]
  rfl

theorem updateRecreateInstallFromBackup_fine (h : Mergeable installDir backupDir stagingDir s) :
    Copies newMode fine (updateRecreateInstallFromBackup installDir backupDir)
      (fun status _ t => status = .ok ∧ Recreated installDir backupDir s t) s := by
  have hbackup : backupDir ≠ [] := by
    rintro rfl
    exact h.backupApart.here List.nil_prefix
  have hlen : installDir.length < pathMax := h.backupShort.dirs [] (by rw [List.append_nil]; exact h.backup)
  unfold updateRecreateInstallFromBackup
  rw [if_neg (by simp [h.install_ne_nil, hbackup])]
  apply (mkdir_fine h.install_ne_nil hlen h.free).seq
  rintro made tr t ⟨rfl, rfl, hmade⟩
  have hfree : ∀ d ∈ wayTo installDir, t.1.fileAt (fsPath d) = none :=
    fun d hd => FileTree.fileAt_eq_none_of_isDir t.2.tree (hmade.2 rfl d hd)
  apply (copyTreeWith_overlaid (h.backup_clear hmade) hfree).seq
  rintro status tr u ⟨rfl, hover⟩
  exact ⟨rfl, h.recreated hmade hover⟩

end Copy

open Copy (Mergeable Merged Outcome device)

/-- **The law of the merge.** Let the trees fit together. In every environment that lets no operation fail, whatever the
    order in which it gives the names of the directories, `update_merge_overlay_install` returns `UPDATE_OK`; backup
    and staging tree are as they were, and the files in the install directory are the staged ones, under the names that
    they get, over those of the backup over those that were there. -/
theorem updateMergeOverlayInstall_merges (newMode : Nat) (installDir backupDir stagingDir : Bytes) (s : Volume)
    (env : Nat → Outcome) (hfine : ∀ i, (env i).Fine) (h : Mergeable installDir backupDir stagingDir s) :
    ∃ n, ∀ m, n ≤ m →
      ((device newMode).run (updateMergeOverlayInstall installDir backupDir stagingDir) ((List.range m).map env)
          s).result = some .ok
      ∧ Merged installDir backupDir stagingDir s ((device newMode).run
          (updateMergeOverlayInstall installDir backupDir stagingDir) ((List.range m).map env) s).final := by
  have hcopies : Copy.Copies newMode Copy.fine (updateMergeOverlayInstall installDir backupDir stagingDir)
      (fun status _ t => status = .ok ∧ Merged installDir backupDir stagingDir s t) s := by
    have hbackup : backupDir ≠ [] := by
      rintro rfl
      exact h.backupApart.here List.nil_prefix
    have hstaging : stagingDir ≠ [] := by
      rintro rfl
      exact h.stagingApart.here List.nil_prefix
    unfold updateMergeOverlayInstall
    rw [if_neg (by simp [h.install_ne_nil, hbackup, hstaging])]
    apply (Copy.updateRecreateInstallFromBackup_fine h).seq
    rintro status tr t ⟨rfl, hrec⟩
    apply (Copy.copyTreeWith_overlaid (h.staging_clear hrec) hrec.free).seq
    rintro status tr' u ⟨rfl, hover⟩
    exact ⟨rfl, h.merged hrec hover⟩
  obtain ⟨n, hn⟩ := hcopies.returns env fun i _ _ => hfine i
  refine ⟨n, ?_⟩
  intro m hm
  obtain ⟨status, hresult, rfl, hmerged⟩ := hn m hm
  exact ⟨hresult, hmerged⟩

/-! ### An update of the updater -/

/-- A backup and a staging directory with an updater in each; there is no install directory. -/
def mergeVolume : Volume :=
  (((Volume.empty.put (ascii "/b") .dir (by decide +kernel)).put (ascii "/b/updater") (.file ⟨ascii "old", 0o755⟩)
    (by decide +kernel)).put (ascii "/s") .dir (by decide +kernel)).put (ascii "/s/Updater")
    (.file ⟨ascii "new", 0o755⟩) (by decide +kernel)

/-- The paths in the three trees. -/
theorem mergeVolume_paths : mergeVolume.1.below (fsPath (ascii "/s")) = [[ascii "Updater"], []]
    ∧ mergeVolume.1.below (fsPath (ascii "/b")) = [[ascii "updater"], []]
    ∧ mergeVolume.1.below (fsPath (ascii "/i")) = [] := by
  refine ⟨?_, ?_, ?_⟩
  · decide +kernel
  · decide +kernel
  · decide +kernel

/-- In a directory of one file there is this file and nothing else. -/
theorem one_below {t : Fs} {S q : List Bytes} {x : Bytes} (hone : t.below S = [[x], []])
    (h : (t.get (S ++ q)).isSome) : q = [x] ∨ q = [] := by
  have hmem := FileTree.mem_below h
  rwa [hone, List.mem_cons, List.mem_singleton] at hmem

theorem copyOf_one {overlay : Bool} {s : Volume} {S q : List Bytes} {x : Bytes} (hone : s.1.below S = [[x], []])
    (h : (Copy.copyOf overlay s S q).isSome) : q = [Copy.leafOf overlay x] := by
  obtain ⟨way, y, rfl, hy⟩ := Copy.copyOf_isSome h
  rcases one_below hone hy with hfile | hdir
  · obtain ⟨rfl, hlast⟩ := List.append_inj' (show way ++ [y] = [] ++ [x] from hfile) rfl
    rw [(List.cons.inj hlast).1]
    rfl
  · exact absurd (List.append_eq_nil_iff.mp hdir).2 (List.cons_ne_nil _ _)

/-- The paths of a directory of one file, in the source and in the destination. -/
theorem short_of_one {overlay : Bool} {s : Volume} {src dst x : Bytes} (hsrc : fsPath src ≠ [])
    (hone : s.1.below (fsPath src) = [[x], []])
    (hshort : ∀ q ∈ [[x], [], [Copy.leafOf overlay x]],
      (Copy.joined src q).length < pathMax ∧ (Copy.joined dst q).length < pathMax) :
    Copy.Short overlay src dst s := by
  have hmem : ∀ q, (s.1.get (fsPath src ++ q)).isSome → q ∈ [[x], [], [Copy.leafOf overlay x]] := by
    intro q hq
    rcases one_below hone hq with rfl | rfl
    · simp
    · simp
  have hdir : ∀ q, s.1.isDir (fsPath src ++ q) = true → (s.1.get (fsPath src ++ q)).isSome := by
    intro q hq
    rcases FileTree.isDir_iff.mp hq with hroot | hget
    · exact absurd (List.append_eq_nil_iff.mp hroot).1 hsrc
    · rw [hget]
      rfl
  constructor
  · exact fun q hq => (hshort q (hmem q hq)).1
  · exact fun q hq => (hshort q (hmem q (hdir q hq))).2
  · intro q hq
    rw [copyOf_one hone hq]
    exact (hshort _ (by simp)).2

theorem distinct_of_one {s : Volume} {S : List Bytes} {x : Bytes} (name : Bytes → Bytes)
    (hone : s.1.below S = [[x], []]) : s.1.Distinct name S := by
  have honly : ∀ q z, (s.1.get (S ++ q ++ [z])).isSome → z = x := by
    intro q z hz
    rw [List.append_assoc] at hz
    rcases one_below hone hz with hfile | hdir
    · exact (List.cons.inj (List.append_inj' (show q ++ [z] = [] ++ [x] from hfile) rfl).2).1
    · exact absurd (List.append_eq_nil_iff.mp hdir).2 (List.cons_ne_nil _ _)
  intro q y z hy hz _
  rw [honly q y hy, honly q z hz]

theorem mergeVolume_mergeable : Mergeable (ascii "/i") (ascii "/b") (ascii "/s") mergeVolume := by
  obtain ⟨hS, hB, hI⟩ := mergeVolume_paths
  refine ⟨?_, ?_, ⟨?_, ?_⟩, ⟨?_, ?_⟩, ?_, ?_, short_of_one ?_ hB ?_, short_of_one ?_ hS ?_, distinct_of_one _ hS, ?_⟩
  · unfold Copy.Straight
    decide +kernel
  · decide +kernel
  · decide +kernel
  · decide +kernel
  · decide +kernel
  · decide +kernel
  · decide +kernel
  · decide +kernel
  · decide +kernel
  · decide +kernel
  · decide +kernel
  · decide +kernel
  · -- what comes to the install directory comes from the one file of the staging directory or of the backup
    rintro q (hq | hq | hq)
    · obtain rfl := copyOf_one hS hq
      decide +kernel
    · rcases one_below hB (isSome_of_dataAt hq) with rfl | rfl
      · decide +kernel
      · exact absurd hq (by decide +kernel)
    · have hmem := FileTree.mem_below (isSome_of_dataAt hq)
      rw [hI] at hmem
      cases hmem

/-- The old updater is installed from the backup, and the new one beside it. -/
theorem updateMergeOverlayInstall_merges_updater :
    ∃ n, ∀ m, n ≤ m →
      dataAt ((device 0o644).run (updateMergeOverlayInstall (ascii "/i") (ascii "/b") (ascii "/s"))
        ((List.range m).map fun _ => nothingFailing) mergeVolume).final.1 (fsPath (ascii "/i") ++ [ascii "updater"])
          = some (ascii "old")
      ∧ dataAt ((device 0o644).run (updateMergeOverlayInstall (ascii "/i") (ascii "/b") (ascii "/s"))
        ((List.range m).map fun _ => nothingFailing) mergeVolume).final.1 (fsPath (ascii "/i") ++ [ascii "updater_new"])
          = some (ascii "new") := by
  have hfine : ∀ _ : Nat, Outcome.Fine nothingFailing := by
    intro _ o
    cases o with
    | opendir path => exact ⟨[], rfl⟩
    | _ => rfl
  obtain ⟨n, hn⟩ := updateMergeOverlayInstall_merges 0o644 (ascii "/i") (ascii "/b") (ascii "/s") mergeVolume
    (fun _ => nothingFailing) hfine mergeVolume_mergeable
  refine ⟨n, ?_⟩
  intro m hm
  obtain ⟨_, hmerged⟩ := hn m hm
  refine ⟨?_, ?_⟩
  · rw [hmerged.files]
    decide +kernel
  · rw [hmerged.files]
    decide +kernel

end LibUpdate
