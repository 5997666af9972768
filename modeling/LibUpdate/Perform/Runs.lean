import LibUpdate.Perform.Steps

/-!
# `Perform.Runs` — whole runs of `update_perform`

`ForkRecord` is all that a run does which comes to make a child for the updater: `updatePerform_ends` says that a run
either leaves the trace of such a record, and what becomes of the child decides what it returns, or makes no child
and, where it returns, has removed the work directory.
-/

namespace LibUpdate

section

variable {A : Event LibOp LibOutcome LibState → Prop}

/-! ## The end of a run -/

/-- A run that makes no child: where it returns, and removals turn out well, the work directory is gone. -/
structure Abandoned (A : Event LibOp LibOutcome LibState → Prop) (workdir : Bytes) (r : Option UpdateStatus)
    (tr : List Act) (t : LibState) : Prop where
  status : r ≠ some .started
  idle : Idle tr
  gone : r ≠ none → Removes A → t.fs.get (fsPath workdir) = none

theorem Abandoned.prepend {workdir : Bytes} {r : Option UpdateStatus} {tr tr' : List Act} {t : LibState}
    (h : Abandoned A workdir r tr' t) (htr : Idle tr) : Abandoned A workdir r (tr ++ tr') t :=
  ⟨h.status, htr.append h.idle, h.gone⟩

theorem abandon_abandoned {workdir : Bytes} (hne : workdir ≠ []) (s : LibState) :
    Ends A (abandon workdir) (fun r tr t => Abandoned A workdir r tr t) s := by
  apply (abandon_ends hne s).mono
  rintro r tr t ⟨rfl, rfl, hgone⟩
  exact ⟨by simp, .nil, fun _ => hgone⟩

theorem abandonPackage_abandoned {workdir : Bytes} (hne : workdir ≠ []) (zipPath : Bytes) (s : LibState) :
    Ends A (abandonPackage workdir zipPath) (fun r tr t => Abandoned A workdir r tr t) s := by
  apply (abandonPackage_ends hne zipPath s).mono
  rintro r tr t ⟨rfl, rfl, hgone⟩
  exact ⟨by simp, .nil, fun _ => hgone⟩

/-- The trace of the child that is made for the updater on a package. -/
def SpawnTail (package : Bytes) (s : Session) (child : Child) (tr : List Act) : Prop :=
  ∃ calls path argv cwd,
    tr = [.locked .updateApplySpawn calls (runCalls calls s), .forked path argv cwd child]
      ∧ (runCalls calls s).ctx.initialized = true ∧ StartedOn (runCalls calls s).ctx package argv

/-- The end of a run that has made a child, in this file system: what the parent reads of it decides. -/
structure SpawnEnd (A : Event LibOp LibOutcome LibState → Prop) (workdir : Bytes) (fs : Fs) (child : Child)
    (r : Option UpdateStatus) (t : LibState) : Prop where
  started : child.endOfFile = true → r = some .started ∧ t.fs = fs
  failed : child.endOfFile = false → r = some .error ∧ (Removes A → t.fs.get (fsPath workdir) = none)

theorem performSpawn_ends {workdir package : Bytes} (hne : workdir ≠ []) (habs : pathIsAbsolute package = true)
    (s : LibState) :
    Ends A (performSpawn workdir package)
      (fun r tr t => (∃ child, SpawnTail package s.session child tr ∧ SpawnEnd A workdir s.fs child r t)
        ∨ Abandoned A workdir r tr t) s := by
  apply (updateApplySpawn_ends habs s).seq
  rintro spawned tr t ⟨hfs, calls, hsession, hacts⟩
  rcases hacts with ⟨rfl, rfl⟩ | ⟨path, argv, cwd, child, hborn, rfl, rfl, hinit, hon⟩
  · apply (abandon_abandoned hne t).mono
    intro r tr u h
    exact Or.inr (h.prepend (.cons rfl .nil))
  · rw [hsession] at hinit hon ⊢
    have htail : SpawnTail package s.session child
        [.locked .updateApplySpawn calls (runCalls calls s.session), .forked path argv cwd child] :=
      ⟨calls, path, argv, cwd, rfl, hinit, hon⟩
    cases hend : child.endOfFile with
    | true => exact Or.inl ⟨child, htail, fun _ => ⟨rfl, hfs⟩, fun h => by rw [hend] at h; cases h⟩
    | false =>
        apply (abandon_ends hne t).mono
        rintro r tr u ⟨rfl, rfl, hgone⟩
        exact Or.inl ⟨child, htail, fun h => (by rw [hend] at h; cases h), fun _ => ⟨rfl, hgone⟩⟩

/-! ## The signature -/

/-- The trace from the reading of the verifier on: it approves, if there is one, and the child is made. -/
def SignatureTail (package : Bytes) (s : Session) (child : Child) (tr : List Act) : Prop :=
  ∃ calls tail,
    tr = .locked .signatureCb calls (runCalls calls s)
        :: (((runCalls calls s).ctx.verifier.map fun v => Act.verified v package 0).toList ++ tail)
      ∧ SpawnTail package (runCalls calls s) child tail

theorem performSignature_ends {workdir package : Bytes} (hne : workdir ≠ [])
    (habs : pathIsAbsolute package = true) (s : LibState) :
    Ends A (performSignature workdir package)
      (fun r tr t => (∃ child, SignatureTail package s.session child tr ∧ SpawnEnd A workdir s.fs child r t)
        ∨ Abandoned A workdir r tr t) s := by
  apply Leaves.perform
  rintro e ctx t _ ⟨⟩
  have hlocked : Idle (actsOf ⟨.locked .signatureCb, e, s⟩) := .cons rfl .nil
  split
  · next hverifier =>
    apply (performSpawn_ends hne habs _).mono
    rintro r tr t (⟨child, htail, hend⟩ | h)
    · refine Or.inl ⟨child, ⟨e (.locked .signatureCb), tr, ?_, htail⟩, hend⟩
      rw [hverifier]
      rfl
    · exact Or.inr (h.prepend hlocked)
  · next v hverifier =>
    apply Leaves.perform
    rintro e' answer t _ ⟨⟩
    have hverified (s' : LibState) : Idle (actsOf ⟨.verifySignature v package, e', s'⟩) := .cons rfl .nil
    split
    · apply (abandonPackage_abandoned hne package _).mono
      intro r tr t h
      exact Or.inr ((h.prepend (hverified _)).prepend hlocked)
    next hanswer =>
    have hzero : e' (.verifySignature v package) = 0 := by simpa using hanswer
    apply (performSpawn_ends hne habs _).mono
    rintro r tr t (⟨child, htail, hend⟩ | h)
    · refine Or.inl ⟨child, ⟨e (.locked .signatureCb), tr, ?_, htail⟩, hend⟩
      rw [hverifier]
      show _ :: .verified v package (e' (.verifySignature v package)) :: tr = _
      rw [hzero]
      rfl
    · exact Or.inr ((h.prepend (hverified _)).prepend hlocked)

/-! ## The download -/

theorem dataAt_set (t : Fs) (p : List Bytes) (f : FileNode) : dataAt (t.set p (.file f)) p = some f.data := by
  unfold dataAt FileTree.fileAt
  rw [FileTree.get_set, if_pos rfl]
  rfl

/-- A download puts its file in place, and shows that, or fails. -/
theorem streamDownload_cases (url path : Bytes) (e : LibOutcome) (s : LibState) :
    (∃ content, (stepStreamDownload path (e (.streamDownload url path)) s.fs).1 = true
        ∧ dataAt (stepStreamDownload path (e (.streamDownload url path)) s.fs).2 (fsPath path) = some content
        ∧ actsOf ⟨.streamDownload url path, e, s⟩ = [.downloaded url path content])
      ∨ ((stepStreamDownload path (e (.streamDownload url path)) s.fs).1 = false
        ∧ actsOf ⟨.streamDownload url path, e, s⟩ = []) := by
  cases hdown : e (.streamDownload url path) with
  | complete file =>
      cases hopen : canOpen s.fs (fsPath path) with
      | true =>
          refine Or.inl ⟨file.data, ?_, ?_, ?_⟩
          · simp only [stepStreamDownload, hopen, if_true]
          · simp only [stepStreamDownload, hopen, if_true]
            exact dataAt_set _ _ _
          · simp only [actsOf, hdown, hopen, if_true]
      | false =>
          refine Or.inr ⟨?_, ?_⟩
          · simp only [stepStreamDownload, hopen, Bool.false_eq_true, if_false]
          · simp only [actsOf, hdown, hopen, Bool.false_eq_true, if_false]
  | failed left =>
      refine Or.inr ⟨?_, ?_⟩
      · unfold stepStreamDownload
        cases left with
        | none => rfl
        | some file =>
            dsimp only
            split
            · rfl
            · rfl
      · simp only [actsOf, hdown]

/-- The trace from the download on: the package is hashed before anything else looks at it. -/
def DownloadTail (info : UpdateInfo) (package content : Bytes) (s : Session) (child : Child) (tr : List Act) :
    Prop :=
  ∃ tail,
    tr = .downloaded (cstr info.downloadUrl.toList) package content :: .read package content :: tail
      ∧ HasDigest content (cstr info.checksum.toList) ∧ SignatureTail package s child tail

theorem performDownload_ends (fuel : Nat) (info : UpdateInfo) {workdir package : Bytes} (hne : workdir ≠ [])
    (habs : pathIsAbsolute package = true) (s : LibState) :
    Ends A (performDownload fuel info workdir package)
      (fun r tr t => (∃ fs content child, dataAt fs (fsPath package) = some content
          ∧ DownloadTail info package content s.session child tr ∧ SpawnEnd A workdir fs child r t)
        ∨ Abandoned A workdir r tr t) s := by
  apply (dupStr_ends (cstr info.downloadUrl.toList) s).seq
  rintro dlUrl tr t ⟨rfl, rfl, hurl⟩
  apply (dupStr_ends (cstr info.checksum.toList) _).seq
  rintro checksum tr t ⟨rfl, rfl, hchecksum⟩
  split
  case h_2 =>
    exact (abandon_abandoned hne _).or_right
  next dlUrl checksum =>
  cases hurl dlUrl rfl
  cases hchecksum checksum rfl
  apply Leaves.perform
  rintro e downloaded t _ ⟨⟩
  rcases streamDownload_cases (cstr info.downloadUrl.toList) package e _ with
    ⟨content, hok, hdata, hshow⟩ | ⟨hfail, hshow⟩
  · rw [hshow, hok, if_pos rfl]
    have hdownloaded : Idle [.downloaded (cstr info.downloadUrl.toList) package content] := .cons rfl .nil
    apply (updateVerify_ends fuel package _ _).seq
    rintro verified tr t ⟨rfl, hidle, hverified⟩
    split
    · exact Or.inr ⟨by simp, hdownloaded.append (hidle.append .nil), fun h => absurd rfl h⟩
    · obtain ⟨content', rfl, hread, hdigest⟩ := hverified rfl
      cases hdata.symm.trans hread
      apply (performSignature_ends hne habs _).mono
      rintro r tr t (⟨child, htail, hend⟩ | h)
      · exact Or.inl ⟨_, content, child, hdata, ⟨tr, rfl, hdigest, htail⟩, hend⟩
      · exact Or.inr ((h.prepend hidle).prepend hdownloaded)
    · apply (abandonPackage_abandoned hne package _).mono
      intro r tr t h
      exact Or.inr ((h.prepend hidle).prepend hdownloaded)
  · rw [hshow, hfail, if_neg Bool.false_ne_true]
    exact (abandon_abandoned hne _).or_right

/-! ## The whole of `update_perform` -/

/-- A run that makes no child: where it returns, and removals turn out well, the directories it made are gone. -/
structure NotForked (A : Event LibOp LibOutcome LibState → Prop) (r : Option UpdateStatus) (tr : List Act)
    (t : LibState) : Prop where
  status : r ≠ some .started
  forked : ∀ path argv cwd child, Act.forked path argv cwd child ∉ tr
  gone : r ≠ none → Removes A → ∀ dir, Act.created dir ∈ tr → t.fs.get (fsPath dir) = none

theorem Idle.not_forked {tr : List Act} (h : Idle tr) (path : Bytes) (argv : List Bytes) (cwd : Bytes)
    (child : Child) : Act.forked path argv cwd child ∉ tr := fun hmem => Bool.false_ne_true (h _ hmem)

theorem Idle.not_created {tr : List Act} (h : Idle tr) (dir : Bytes) : Act.created dir ∉ tr :=
  fun hmem => Bool.false_ne_true (h _ hmem)

theorem Idle.notForked {tr : List Act} (h : Idle tr) {r : Option UpdateStatus} (hr : r ≠ some .started)
    (t : LibState) : NotForked A r tr t :=
  ⟨hr, h.not_forked, fun _ _ dir hmem => absurd hmem (h.not_created dir)⟩

theorem NotForked.prepend {r : Option UpdateStatus} {tr tr' : List Act} {t : LibState}
    (h : NotForked A r tr' t) (htr : Idle tr) : NotForked A r (tr ++ tr') t := by
  refine ⟨h.status, fun path argv cwd child hmem => ?_, fun hr hA dir hmem => ?_⟩
  · rcases List.mem_append.mp hmem with hmem | hmem
    · exact htr.not_forked path argv cwd child hmem
    · exact h.forked path argv cwd child hmem
  · rcases List.mem_append.mp hmem with hmem | hmem
    · exact absurd hmem (htr.not_created dir)
    · exact h.gone hr hA dir hmem

/-- The work directory is made, and then no child. -/
theorem Abandoned.notForked {workdir : Bytes} {r : Option UpdateStatus} {tr : List Act} {t : LibState}
    (h : Abandoned A workdir r tr t) : NotForked A r (.created workdir :: tr) t := by
  refine ⟨h.status, fun path argv cwd child hmem => ?_, fun hr hA dir hmem => ?_⟩
  · rcases List.mem_cons.mp hmem with heq | hmem
    · cases heq
    · exact h.idle.not_forked path argv cwd child hmem
  · rcases List.mem_cons.mp hmem with heq | hmem
    · cases heq
      exact h.gone hr hA
    · exact absurd hmem (h.idle.not_created dir)

theorem performIn_ends (fuel : Nat) (info : UpdateInfo) (base : Bytes) {workdir : Bytes} (hne : workdir ≠ [])
    (s : LibState) :
    Ends A (performIn fuel info base workdir)
      (fun r tr t => (∃ fs package content child, dataAt fs (fsPath package) = some content
          ∧ DownloadTail info package content s.session child tr ∧ SpawnEnd A workdir fs child r t)
        ∨ Abandoned A workdir r tr t) s := by
  unfold performIn
  split
  · exact (abandon_abandoned hne s).or_right
  next package _ =>
  split
  · exact (abandon_abandoned hne s).or_right
  next hvalid =>
  have habs : pathIsAbsolute package = true := by
    simp only [Bool.or_eq_true, decide_eq_true_eq, not_or, Decidable.not_not] at hvalid
    exact (updateValidatePath_eq_ok.mp hvalid.2).2 rfl
  apply (performDownload_ends fuel info hne habs s).mono
  rintro r tr t (⟨fs, content, child, h⟩ | h)
  · exact Or.inl ⟨fs, package, content, child, h⟩
  · exact Or.inr h

/-- The trace from the work directory on. -/
def AvailableTail (info : UpdateInfo) (workdir package content : Bytes) (s : Session) (child : Child)
    (tr : List Act) : Prop :=
  ∃ calls tail,
    tr = .locked .updatePerform calls (runCalls calls s) :: .created workdir :: tail
      ∧ DownloadTail info package content (runCalls calls s) child tail

theorem performAvailable_ends (fuel : Nat) (info : UpdateInfo) (s : LibState) :
    Ends A (performAvailable fuel info)
      (fun r tr t => (∃ fs workdir package content child, dataAt fs (fsPath package) = some content
          ∧ AvailableTail info workdir package content s.session child tr ∧ SpawnEnd A workdir fs child r t)
        ∨ NotForked A r tr t) s := by
  apply Leaves.perform
  rintro e ctx t _ ⟨⟩
  have hlocked : Idle (actsOf ⟨.locked .updatePerform, e, s⟩) := .cons rfl .nil
  split
  case isFalse => exact Or.inr ((hlocked.append .nil).notForked (by simp) _)
  apply (tempBase_silent _).seq
  intro base
  split
  · exact Or.inr ((hlocked.append .nil).notForked (by simp) _)
  next base =>
  apply (createWorkdir_ends base 0 8 _).seq
  rintro made tr t ⟨hsession, hnone, hsome⟩
  split
  · rw [hnone rfl]
    exact Or.inr ((hlocked.append .nil).notForked (by simp) _)
  next workdir =>
  obtain ⟨hne, rfl⟩ := hsome workdir rfl
  apply (performIn_ends fuel info base hne t).mono
  rintro r tr u (⟨fs, package, content, child, hdata, htail, hend⟩ | h)
  · rw [hsession] at htail
    exact Or.inl ⟨fs, workdir, package, content, child, hdata, ⟨e (.locked .updatePerform), tr, rfl, htail⟩, hend⟩
  · exact Or.inr (h.notForked.prepend hlocked)

/-! ## Records -/

/-- What a run that makes a child for the updater has done, with the calls of the other threads before each section,
    and what becomes of the child. -/
structure ForkRecord where
  callsCheck : List ApiCall
  callsPerform : List ApiCall
  callsSignature : List ApiCall
  callsApply : List ApiCall
  url : Bytes
  body : Bytes
  info : UpdateInfo
  workdir : Bytes
  package : Bytes
  content : Bytes
  path : Bytes
  argv : List Bytes
  cwd : Bytes
  child : Child

namespace ForkRecord

variable (r : ForkRecord) (s : Session)

/-- What the section of `update_check` reads, in a run from `s`: the session after the calls that other threads made
    before it. -/
def checked : Session := runCalls r.callsCheck s

/-- What the first section of `update_perform` itself reads. -/
def prepared : Session := runCalls r.callsPerform (r.checked s)

/-- What the section reads that takes the verifier. -/
def signed : Session := runCalls r.callsSignature (r.prepared s)

/-- What the section of `update_apply_spawn` reads. -/
def applied : Session := runCalls r.callsApply (r.signed s)

/-- The verifier is called on the package, and approves. -/
def approval : List Act := ((r.signed s).ctx.verifier.map fun v => Act.verified v r.package 0).toList

def trace : List Act :=
  [.locked .updateCheck r.callsCheck (r.checked s), .fetched r.url r.body,
    .locked .updatePerform r.callsPerform (r.prepared s), .created r.workdir,
    .downloaded (cstr r.info.downloadUrl.toList) r.package r.content, .read r.package r.content,
    .locked .signatureCb r.callsSignature (r.signed s)]
  ++ r.approval s
  ++ [.locked .updateApplySpawn r.callsApply (r.applied s), .forked r.path r.argv r.cwd r.child]

/-- The record is one of a run of `updatePerform fuel version` from `s`. -/
structure Valid (fuel : Nat) (version : Bytes) : Prop where
  check_initialized : (r.checked s).ctx.initialized = true
  url : (r.checked s).ctx.updateUrl = some r.url
  manifest : NewerManifest fuel version r.body r.info
  digest : HasDigest r.content (cstr r.info.checksum.toList)
  apply_initialized : (r.applied s).ctx.initialized = true
  started : StartedOn (r.applied s).ctx r.package r.argv

/-- The run returns as the parent reads the child: it has succeeded, and the package is as it was hashed, or it has
    failed, and the work directory is gone. -/
structure Returns (A : Event LibOp LibOutcome LibState → Prop) (status : Option UpdateStatus) (t : LibState) :
    Prop where
  started : r.child.endOfFile = true →
    status = some .started ∧ dataAt t.fs (fsPath r.package) = some r.content
  failed : r.child.endOfFile = false →
    status = some .error ∧ (Removes A → t.fs.get (fsPath r.workdir) = none)

end ForkRecord

/-- **A run of `update_perform`** that makes a child for the updater leaves the trace of a record, and returns as the
    parent reads the child. Every other run makes none, and where it returns it leaves no directory that it has
    made. -/
theorem updatePerform_ends (fuel : Nat) (version : Bytes) (s : LibState) :
    Ends A (updatePerform fuel version)
      (fun r tr t => (∃ rec : ForkRecord, rec.Valid s.session fuel version ∧ tr = rec.trace s.session
          ∧ rec.Returns A r t)
        ∨ NotForked A r tr t) s := by
  apply (updateCheck_ends fuel version .zero s).seq
  rintro checked tr t ⟨_, hidle, hcheck⟩
  split
  · exact Or.inr ((hidle.append .nil).notForked (by simp) t)
  · next info =>
    obtain ⟨callsCheck, url, body, hsession, rfl, hinit, hurl, hmanifest⟩ := hcheck info rfl
    apply (performAvailable_ends fuel info t).mono
    rintro r tr u (⟨fs, workdir, package, content, child, hdata, htail, hend⟩ | h)
    · obtain ⟨callsPerform, _, rfl, _, rfl, hdigest, callsSignature, _, rfl, callsApply, path, argv, cwd,
        rfl, happly, hon⟩ := htail
      refine Or.inl ⟨⟨callsCheck, callsPerform, callsSignature, callsApply, url, body, info, workdir, package,
        content, path, argv, cwd, child⟩, ?_, ?_, ?_, hend.failed⟩
      · rw [hsession] at hinit hurl happly hon
        exact ⟨hinit, hurl, hmanifest, hdigest, happly, hon⟩
      · simp [ForkRecord.trace, ForkRecord.approval, ForkRecord.applied, ForkRecord.signed,
          ForkRecord.prepared, ForkRecord.checked, hsession]
      · intro hfile
        obtain ⟨hr, hfs⟩ := hend.started hfile
        rw [hfs]
        exact ⟨hr, hdata⟩
    · exact Or.inr (h.prepend hidle)
  · exact Or.inr ((hidle.append .nil).notForked (by simp) t)
  · exact Or.inr ((hidle.append .nil).notForked (by simp) t)

end

end LibUpdate
