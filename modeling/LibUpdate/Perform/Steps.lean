import LibUpdate.Perform.Model

/-!
# `Perform.Steps` — what each part of `update_perform` does

One lemma for each function that `updatePerform` calls: its value, the trace it leaves and the state it ends in.
`A` are the assumptions on the events; only the removals need one (`Removes`).
-/

namespace LibUpdate

/-- Where events are as `A` assumes, the program ends as `Q` says. -/
abbrev Ends {α : Type} (A : Event LibOp LibOutcome LibState → Prop) (p : LibProg α)
    (Q : α → List Act → LibState → Prop) (s : LibState) : Prop :=
  Leaves libDevice A actsOf p Q s

/-- Neither a directory created nor a child made. -/
def Act.idle : Act → Bool
  | .created _ => false
  | .forked _ _ _ _ => false
  | _ => true

def Idle (tr : List Act) : Prop := ∀ a ∈ tr, a.idle = true

theorem Idle.nil : Idle [] := fun _ h => absurd h List.not_mem_nil

theorem Idle.append {tr tr' : List Act} (h : Idle tr) (h' : Idle tr') : Idle (tr ++ tr') := by
  intro a ha
  rcases List.mem_append.mp ha with ha | ha
  · exact h a ha
  · exact h' a ha

theorem Idle.cons {a : Act} {tr : List Act} (ha : a.idle = true) (h : Idle tr) : Idle (a :: tr) :=
  List.forall_mem_cons.mpr ⟨ha, h⟩

/-- Removals turn out well. What a run has made is then gone where it fails. -/
def Removes (A : Event LibOp LibOutcome LibState → Prop) : Prop :=
  ∀ path e s, A ⟨.removePath path, e, s⟩ → (e (.removePath path)).ok = true

section

variable {α β : Type} {A : Event LibOp LibOutcome LibState → Prop}

/-! ## Programs that only ask -/

/-- Nothing is made, downloaded, removed or started: the operation only asks, and is passed over in what a run
    shows. -/
def Asks : LibOp → Prop
  | .createDirectory _ => False
  | .streamDownload _ _ => False
  | .removePath _ => False
  | .fork _ _ _ => False
  | _ => True

theorem dupStr_asks (x : Bytes) : (dupStr x).Only Asks := .perform trivial fun _ => .ret

theorem updateCheck_asks (fuel : Nat) (version : Bytes) (out : UpdateInfo) :
    (updateCheck fuel version out).Only Asks := by
  refine .perform trivial fun ctx => ?_
  split
  case isFalse => exact .ret
  split
  · exact .ret
  refine (dupStr_asks _).bind fun urlCopy => ?_
  split
  · exact .ret
  unfold updateRemoteCheck
  split
  · exact .ret
  refine .perform trivial fun fetched => ?_
  split
  · exact .ret
  refine .perform trivial fun alloc => ?_
  split
  · exact .ret
  · split <;> exact .ret

theorem tempBase_asks (ctx : UpdateContext) : (tempBase ctx).Only Asks := by
  unfold tempBase
  split
  · exact (dupStr_asks _).bind fun _ => .ret
  · exact .perform trivial fun _ => .ret

theorem updateVerify_asks (fuel : Nat) (file expectedHash : Bytes) :
    (updateVerify fuel file expectedHash).Only Asks := by
  unfold updateVerify
  split
  · exact .ret
  split
  · exact .ret
  refine .perform trivial fun contents => ?_
  split
  · exact .ret
  split
  · exact .ret
  split
  · exact .ret
  · split <;> exact .ret

theorem makeAbsolute_asks (path : Bytes) : (makeAbsolute path).Only Asks := by
  unfold makeAbsolute
  split
  · exact .ret
  · exact .perform trivial fun _ => .ret

theorem platformFsGetExecutablePath_asks (outSize : Nat) : (platformFsGetExecutablePath outSize).Only Asks :=
  .perform trivial fun _ => .ret

theorem platformFsGetExecutableDir_asks (outSize : Nat) : (platformFsGetExecutableDir outSize).Only Asks :=
  (platformFsGetExecutablePath_asks outSize).bind fun _ => .ret

theorem dupArgs_asks (args : List Bytes) : (dupArgs args).Only Asks := by
  induction args with
  | nil => exact .ret
  | cons arg args ih =>
      refine .perform trivial fun given => ?_
      split
      · exact ih
      · exact .ret

theorem dupInstallDir_asks (ctx : UpdateContext) : (dupInstallDir ctx).Only Asks := by
  unfold dupInstallDir
  split
  · exact .op trivial fun _ => .ret
  · exact .ret

theorem installTarget_asks (ctx : UpdateContext) : (installTarget ctx).Only Asks := by
  unfold installTarget
  split
  · refine (makeAbsolute_asks _).bind fun _ => ?_
    split
    · exact .ret
    · exact (dupStr_asks _).bind fun _ => .ret
  · exact .ret

/-! ## Programs that leave no trace -/

/-- The program shows nothing and changes nothing. Most of what `update_perform` does between its steps is silent.
    -/
def Silent (A : Event LibOp LibOutcome LibState → Prop) (p : LibProg α) : Prop :=
  ∀ s, Ends A p (fun _ tr t => tr = [] ∧ t = s) s

theorem Silent.pure (a : α) : Silent A (pure a : LibProg α) := fun _ => ⟨rfl, rfl⟩

theorem Silent.bind {p : LibProg α} {f : α → LibProg β} (hp : Silent A p) (hf : ∀ a, Silent A (f a)) :
    Silent A (p >>= f) := by
  intro s
  apply (hp s).seq
  rintro a tr t ⟨rfl, rfl⟩
  exact hf a _

theorem Silent.ask {o : LibOp} (hshow : ∀ e s, actsOf ⟨o, e, s⟩ = [])
    (hstep : ∀ e s, (libDevice.step o e s).2 = s) :
    Silent A (ask o) := by
  intro s e _
  rw [hstep]
  exact ⟨by rw [hshow]; rfl, rfl⟩

/-- A silent program is left out of the trace. -/
theorem Silent.seq {p : LibProg α} {f : α → LibProg β} {R : β → List Act → LibState → Prop} (hp : Silent A p)
    (hf : ∀ a, Ends A (f a) R s) : Ends A (p >>= f) R s := by
  apply (hp s).seq
  rintro a tr t ⟨rfl, rfl⟩
  exact hf a

theorem dupStr_silent (x : Bytes) : Silent A (dupStr x) := by
  apply Silent.bind
  · exact Silent.ask (fun _ _ => rfl) fun _ _ => rfl
  · intro given
    exact Silent.pure _

theorem makeAbsolute_silent (path : Bytes) : Silent A (makeAbsolute path) := by
  unfold makeAbsolute
  split
  · exact Silent.pure _
  · apply Silent.bind
    · exact Silent.ask (fun _ _ => rfl) fun _ _ => rfl
    · intro cwd
      exact Silent.pure _

theorem platformFsGetExecutablePath_silent (outSize : Nat) : Silent A (platformFsGetExecutablePath outSize) := by
  apply Silent.bind
  · exact Silent.ask (fun _ _ => rfl) fun _ _ => rfl
  · intro link
    exact Silent.pure _

theorem platformFsGetExecutableDir_silent (outSize : Nat) : Silent A (platformFsGetExecutableDir outSize) :=
  (platformFsGetExecutablePath_silent outSize).bind fun _ => Silent.pure _

theorem tempBase_silent (ctx : UpdateContext) : Silent A (tempBase ctx) := by
  unfold tempBase
  split
  · exact (dupStr_silent _).bind fun _ => Silent.pure _
  · apply Silent.bind
    · exact Silent.ask (fun _ _ => rfl) fun _ _ => rfl
    · intro env
      exact Silent.pure _

theorem dupArgs_silent (args : List Bytes) : Silent A (dupArgs args) := by
  induction args with
  | nil => exact Silent.pure _
  | cons arg args ih =>
      apply Silent.bind
      · exact Silent.ask (fun _ _ => rfl) fun _ _ => rfl
      · intro given
        cases given with
        | false => exact Silent.pure _
        | true => exact ih

theorem dupInstallDir_silent (ctx : UpdateContext) : Silent A (dupInstallDir ctx) := by
  unfold dupInstallDir
  split
  · exact Silent.ask (fun _ _ => rfl) fun _ _ => rfl
  · exact Silent.pure _

/-- A copy is the string, where it is made. -/
theorem dupStr_ends (x : Bytes) (s : LibState) :
    Ends A (dupStr x) (fun r tr t => tr = [] ∧ t = s ∧ ∀ y, r = some y → y = x) s := by
  apply Leaves.perform
  rintro e given t _ ⟨⟩
  refine ⟨rfl, rfl, ?_⟩
  intro y hy
  split at hy
  · exact (Option.some.inj hy).symm
  · cases hy

/-! ## `update_check` -/

/-- A manifest that was read, of a version that is newer as it is read. -/
structure NewerManifest (fuel : Nat) (version body : Bytes) (info : UpdateInfo) : Prop where
  parsed : ∃ alloc, updateManifestParse alloc fuel (cstr body) = some (0, info)
  newer : NewerAsRead (cstr info.version.toList) version

theorem judgeVersion_available {version : Bytes} {out info : UpdateInfo}
    (h : judgeVersion version out = (.available, info)) :
    info = out ∧ NewerAsRead (cstr out.version.toList) version := by
  unfold judgeVersion at h
  dsimp only at h
  split at h
  · cases h
  next hneg =>
  split at h
  · cases h
  next hzero =>
  cases h
  refine ⟨rfl, remoteVersionIsNewer_eq_one.mp ?_⟩
  rcases remoteVersionIsNewer_cases (cstr out.version.toList) version with h | h | h
  · exact h
  · exact absurd h hzero
  · rw [h] at hneg
    exact absurd (by decide) hneg

/-- `update_remote_check` fetches the manifest, and finds an update only in a newer one. -/
theorem updateRemoteCheck_ends (fuel : Nat) (version url : Bytes) (s : LibState) :
    Ends A (updateRemoteCheck fuel version url)
      (fun r tr t => t = s ∧ Idle tr ∧ ∀ info, r = some (.available, info) →
        ∃ body, tr = [.fetched url body] ∧ NewerManifest fuel version body info) s := by
  unfold updateRemoteCheck
  split
  · exact ⟨rfl, .nil, fun info h => by cases h⟩
  apply Leaves.perform
  rintro e fetched t _ ⟨⟩
  cases hbody : e (.fetch url) with
  | none =>
      refine ⟨rfl, ?_, fun info h => by cases h⟩
      simp only [actsOf, hbody]
      exact .nil
  | some body =>
      have hshow : actsOf ⟨.fetch url, e, s⟩ = [.fetched url body] := by
        simp only [actsOf, hbody]
        rfl
      have hidle : Idle [.fetched url body] := .cons rfl .nil
      apply Leaves.perform
      rintro e' alloc t _ ⟨⟩
      rw [hshow]
      split
      · exact ⟨rfl, hidle, fun info h => by cases h⟩
      next rc out hparse =>
      split
      · exact ⟨rfl, hidle, fun info h => by cases h⟩
      next hrc =>
      refine ⟨rfl, hidle, fun info h => ⟨body, rfl, ?_⟩⟩
      obtain ⟨rfl, hnewer⟩ := judgeVersion_available (Option.some.inj h)
      have hzero : rc = 0 := by simpa using hrc
      subst hzero
      exact ⟨⟨_, hparse⟩, hnewer⟩

/-- **`update_check`** reads the URL from the context. -/
theorem updateCheck_ends (fuel : Nat) (version : Bytes) (out : UpdateInfo) (s : LibState) :
    Ends A (updateCheck fuel version out)
      (fun r tr t => t.fs = s.fs ∧ Idle tr ∧ ∀ info, r = some (.available, info) →
        ∃ calls url body, t.session = runCalls calls s.session
          ∧ tr = [.locked .updateCheck calls t.session, .fetched url body]
          ∧ t.session.ctx.initialized = true ∧ t.session.ctx.updateUrl = some url
          ∧ NewerManifest fuel version body info) s := by
  apply Leaves.perform
  rintro e ctx t _ ⟨⟩
  have hlocked :
      Idle [.locked .updateCheck (e (.locked .updateCheck)) (runCalls (e (.locked .updateCheck)) s.session)] :=
    .cons rfl .nil
  split
  case isFalse => exact ⟨rfl, hlocked, fun info h => by cases h⟩
  next hinit =>
  split
  · exact ⟨rfl, hlocked, fun info h => by cases h⟩
  next url hurl =>
  apply (dupStr_ends url _).seq
  rintro copy tr t ⟨rfl, rfl, hcopy⟩
  split
  · exact ⟨rfl, hlocked, fun info h => by cases h⟩
  next url' =>
  cases hcopy url' rfl
  apply (updateRemoteCheck_ends fuel version url _).mono
  rintro r tr t ⟨rfl, hidle, havail⟩
  refine ⟨rfl, hlocked.append hidle, fun info hr => ?_⟩
  obtain ⟨body, rfl, hmanifest⟩ := havail info hr
  exact ⟨e (.locked .updateCheck), url, body, rfl, rfl, hinit, hurl, hmanifest⟩

/-! ## `update_verify` -/

/-- The bytes have the written digest. SHA-256 is defined below 2^61 bytes. -/
def HasDigest (content written : Bytes) : Prop :=
  ∀ m : Fips180.Message, m.bytes = content → parseSha256Hex written = some m.digest

/-- Equal to the digest that is expected, the hash says what the bytes were. -/
theorem hasDigest_of_equal {fuel : Nat} {data written expectBin : Bytes} {ctx : Sha256.Sha256Ctx}
    (hparse : parseSha256Hex written = some expectBin) (hhash : hashBlocks fuel data = some ctx)
    (heq : sha256DigestEqualsCt (Sha256.sha256Final ctx (.replicate 32 0)) expectBin = 0) :
    HasDigest data written := by
  intro m hm
  have hfinal : Sha256.sha256Final ctx (.replicate 32 0) = m.digest :=
    Sha256.sha256Final_of_updates hhash (by rw [hm, flatten_freadBlocks]) _
  rw [hfinal] at heq
  have hlen : m.digest.length = expectBin.length := by
    rw [Sha256.length_digest, length_parseSha256Hex hparse]
  rw [hparse, (sha256DigestEqualsCt_eq_zero hlen).mp heq]

/-- Only a read up to the end has no error. -/
theorem stepReadFile_complete {path data : Bytes} {e : ReadOutcome} {t : Fs}
    (h : stepReadFile path e t = some (data, false)) : dataAt t (fsPath path) = some data := by
  unfold stepReadFile at h
  cases hdata : dataAt t (fsPath path) with
  | none =>
      rw [hdata] at h
      cases h
  | some content =>
      rw [hdata] at h
      cases e with
      | complete =>
          cases h
          rfl
      | unopened => cases h
      | error n => cases h

/-- **`update_verify`** succeeds only on a file that it has read to its end and that has the expected digest. -/
theorem updateVerify_ends (fuel : Nat) (file written : Bytes) (s : LibState) :
    Ends A (updateVerify fuel file written)
      (fun r tr t => t = s ∧ Idle tr ∧ (r = some .ok → ∃ content, tr = [.read file content]
        ∧ dataAt s.fs (fsPath file) = some content ∧ HasDigest content written)) s := by
  unfold updateVerify
  split
  · exact ⟨rfl, .nil, fun h => by cases h⟩
  split
  · exact ⟨rfl, .nil, fun h => by cases h⟩
  next expectBin hparse =>
  apply Leaves.perform
  rintro e contents t _ ⟨⟩
  have hidle : Idle (actsOf ⟨.readFile file, e, s⟩) := by
    simp only [actsOf]
    split
    · exact .cons rfl .nil
    · exact .nil
  split
  · exact ⟨rfl, hidle.append .nil, fun h => by cases h⟩
  next data ferror hread =>
  split
  · exact ⟨rfl, hidle.append .nil, fun h => by cases h⟩
  next ctx hhash =>
  split
  · exact ⟨rfl, hidle.append .nil, fun h => by cases h⟩
  next herr =>
  split
  · exact ⟨rfl, hidle.append .nil, fun h => by cases h⟩
  next heq =>
  refine ⟨rfl, hidle.append .nil, fun _ => ⟨data, ?_, ?_, ?_⟩⟩
  · simp only [actsOf, hread, Bool.eq_false_iff.mpr herr]
    rfl
  · rw [Bool.eq_false_iff.mpr herr] at hread
    exact stepReadFile_complete hread
  · exact hasDigest_of_equal hparse hhash (by simpa using heq)

/-! ## The work directory -/

/-- The loop of the attempts ends with a directory that it has made, or has made none. -/
theorem createWorkdir_ends (base : Bytes) (attempt : UInt64) (left : Nat) (s : LibState) :
    Ends A (createWorkdir base attempt left)
      (fun r tr t => t.session = s.session ∧ (r = none → tr = [])
        ∧ ∀ dir, r = some dir → dir ≠ [] ∧ tr = [.created dir]) s := by
  induction left generalizing attempt s with
  | zero => exact ⟨rfl, fun _ => rfl, fun dir h => by cases h⟩
  | succ left ih =>
      apply Leaves.perform
      rintro e now t _ ⟨⟩
      apply Leaves.perform
      rintro e' pid t _ ⟨⟩
      split
      · exact ⟨rfl, fun _ => rfl, fun dir h => by cases h⟩
      next workdir hdir =>
      have hne : workdir ≠ [] := by
        rw [(snprintf_eq_some.mp hdir).2, workdirName]
        intro hnil
        have hmid := (List.append_eq_nil_iff.mp (List.append_eq_nil_iff.mp hnil).1).2
        exact absurd hmid (by decide)
      apply Leaves.perform
      rintro e'' made t _ ⟨⟩
      cases hmade : (stepCreateDirectory workdir (e'' (.createDirectory workdir)) s.fs).1 with
      | true =>
          have hshow : actsOf ⟨.createDirectory workdir, e'', s⟩ = [.created workdir] := by
            simp only [actsOf, hmade]
            rfl
          rw [hshow]
          refine ⟨rfl, fun h => (by cases h), ?_⟩
          rintro dir ⟨⟩
          exact ⟨hne, rfl⟩
      | false =>
          have hshow : actsOf ⟨.createDirectory workdir, e'', s⟩ = [] := by
            simp only [actsOf, hmade]
            rfl
          rw [hshow, if_neg Bool.false_ne_true]
          apply (ih (attempt + 1) _).mono
          intro r tr t h
          exact h

/-- What a removal that turns out well leaves at its path. -/
theorem get_stepRemove {path : Bytes} {e : FsOutcome} (he : e.ok = true) (t : Fs) :
    (stepRemove path e t).2.get (fsPath path) = none := by
  unfold stepRemove
  rw [if_pos he]
  split
  · next h => exact Option.isNone_iff_eq_none.mp h
  · show (t.removeUnder (fsPath path)).get (fsPath path) = none
    rw [FileTree.get_removeUnder, if_pos (List.prefix_refl _)]

theorem removeAttempts_ends (path : Bytes) (left : Nat) (s : LibState) :
    Ends A (removeAttempts path left)
      (fun _ tr t => tr = [] ∧ t.session = s.session
        ∧ (Removes A → 0 < left ∨ s.fs.get (fsPath path) = none → t.fs.get (fsPath path) = none)) s := by
  induction left generalizing s with
  | zero =>
      refine ⟨rfl, rfl, fun _ h => ?_⟩
      rcases h with h | h
      · exact absurd h (Nat.lt_irrefl 0)
      · exact h
  | succ left ih =>
      apply Leaves.perform
      rintro e gone t he ⟨⟩
      have hgone (hA : Removes A) : (stepRemove path (e (.removePath path)) s.fs).2.get (fsPath path) = none :=
        get_stepRemove (hA path e s he) s.fs
      split
      · exact ⟨rfl, rfl, fun hA _ => hgone hA⟩
      · apply (ih _).mono
        rintro r tr t ⟨rfl, hsession, hleft⟩
        exact ⟨rfl, hsession, fun hA _ => hleft hA (Or.inr (hgone hA))⟩

/-- **`abandon`** fails, and the work directory is gone where removals turn out well. -/
theorem abandon_ends {workdir : Bytes} (hne : workdir ≠ []) (s : LibState) :
    Ends A (abandon workdir)
      (fun r tr t => r = some .error ∧ tr = [] ∧ (Removes A → t.fs.get (fsPath workdir) = none)) s := by
  unfold abandon Perform.updateRemoveTree
  rw [if_neg hne]
  apply (removeAttempts_ends workdir 16 s).seq
  rintro r tr t ⟨rfl, _, hgone⟩
  exact ⟨rfl, rfl, fun hA => hgone hA (Or.inl (by decide))⟩

theorem abandonPackage_ends {workdir : Bytes} (hne : workdir ≠ []) (zipPath : Bytes) (s : LibState) :
    Ends A (abandonPackage workdir zipPath)
      (fun r tr t => r = some .error ∧ tr = [] ∧ (Removes A → t.fs.get (fsPath workdir) = none)) s := by
  apply Leaves.perform
  rintro e gone t _ ⟨⟩
  exact abandon_ends hne _

/-! ## `update_apply_spawn` -/

/-- An absolute path stays as it is. -/
theorem makeAbsolute_ends (path : Bytes) (s : LibState) :
    Ends A (makeAbsolute path)
      (fun r tr t => tr = [] ∧ t = s ∧ (pathIsAbsolute path = true → ∀ p, r = some p → p = path)) s := by
  by_cases habs : pathIsAbsolute path = true
  · rw [makeAbsolute, if_pos habs]
    refine ⟨rfl, rfl, fun _ p hp => ?_⟩
    unfold updatePathMakeAbsolute at hp
    split at hp
    · cases hp
    split at hp
    · cases hp
    exact (snprintf_eq_some.mp hp).2
  · apply (makeAbsolute_silent path s).mono
    rintro r tr t ⟨rfl, rfl⟩
    exact ⟨rfl, rfl, fun h => absurd h habs⟩

/-- The configured directory is the target, if it is absolute. -/
theorem installTarget_ends (ctx : UpdateContext) (s : LibState) :
    Ends A (installTarget ctx)
      (fun r tr t => tr = [] ∧ t = s ∧ ∀ dir, ctx.installDir = some dir → dir ≠ [] →
        pathIsAbsolute dir = true → ∀ copy, r = some copy → copy = some dir) s := by
  unfold installTarget
  split
  · apply (makeAbsolute_ends _ s).seq
    rintro r tr t ⟨rfl, rfl, hdir⟩
    split
    · exact ⟨rfl, rfl, fun dir _ _ _ copy h => by cases h⟩
    next tmp =>
    apply (dupStr_ends tmp _).seq
    rintro r tr t ⟨rfl, rfl, hcopy⟩
    refine ⟨rfl, rfl, ?_⟩
    intro dir hinst _ habs copy h
    obtain ⟨y, hy, rfl⟩ := Option.map_eq_some_iff.mp h
    rw [hinst] at hdir
    rw [hcopy y hy, hdir habs tmp rfl]
    rfl
  next htext =>
  refine ⟨rfl, rfl, fun dir hinst hne _ => ?_⟩
  rw [holdsText, hinst] at htext
  exact absurd (by simpa using hne) htext

theorem absolutePaths_ends (inst exe dir updater : Bytes) (s : LibState) :
    Ends A (absolutePaths inst exe dir updater)
      (fun r tr t => tr = [] ∧ t = s ∧ (pathIsAbsolute inst = true → ∀ p, r = some p → p.instAbs = inst)) s := by
  apply (makeAbsolute_ends inst s).seq
  rintro r tr t ⟨rfl, rfl, hinst⟩
  split
  · exact ⟨rfl, rfl, fun _ p h => by cases h⟩
  next inst' hbind =>
  have hinst' (habs : pathIsAbsolute inst = true) : inst' = inst := by
    obtain ⟨y, hy, hfits⟩ := Option.bind_eq_some_iff.mp hbind
    rw [(snprintf_eq_some.mp hfits).2, hinst habs y hy]
  apply (makeAbsolute_silent exe).seq
  intro r
  split
  · exact ⟨rfl, rfl, fun _ p h => by cases h⟩
  apply (makeAbsolute_silent dir).seq
  intro r
  split
  · exact ⟨rfl, rfl, fun _ p h => by cases h⟩
  apply (makeAbsolute_silent updater).seq
  intro r
  split
  · exact ⟨rfl, rfl, fun _ p h => by cases h⟩
  split
  · exact ⟨rfl, rfl, fun _ p h => by cases h⟩
  refine ⟨rfl, rfl, fun habs p h => ?_⟩
  cases h
  exact hinst' habs

theorem spawnPaths_ends (installCopy : Option Bytes) (s : LibState) :
    Ends A (spawnPaths installCopy)
      (fun r tr t => tr = [] ∧ t = s ∧ ∀ dir, installCopy = some dir → pathIsAbsolute dir = true →
        ∀ p, r = some p → p.instAbs = dir) s := by
  apply (platformFsGetExecutablePath_silent pathMax).seq
  intro exe
  split
  · exact ⟨rfl, rfl, fun dir _ _ p h => by cases h⟩
  apply (platformFsGetExecutableDir_silent pathMax).seq
  intro exeDir
  split
  · exact ⟨rfl, rfl, fun dir _ _ p h => by cases h⟩
  next exeDir =>
  split
  · next inst updater hinst _ =>
    apply (absolutePaths_ends inst _ exeDir updater s).mono
    rintro r tr t ⟨rfl, rfl, hp⟩
    refine ⟨rfl, rfl, ?_⟩
    rintro dir rfl habs p hr
    rw [Option.getD_some, snprintf_eq_some] at hinst
    rw [hinst.2] at hp
    exact hp habs p hr
  · exact ⟨rfl, rfl, fun dir _ _ p h => by cases h⟩

/-- **One child is made**, or none. -/
theorem platformProcessSpawnWithCwd_ends (path : Bytes) (argv : List Bytes) (cwd : Bytes) (s : LibState) :
    Ends A (platformProcessSpawnWithCwd path argv cwd)
      (fun r tr t => t = s ∧ ((r = false ∧ tr = [])
        ∨ ∃ child, child ≠ .none ∧ r = child.endOfFile ∧ tr = [.forked path argv cwd child])) s := by
  unfold platformProcessSpawnWithCwd
  split
  · exact ⟨rfl, Or.inl ⟨rfl, rfl⟩⟩
  apply Leaves.perform
  rintro e av t _ ⟨⟩
  split
  case isFalse => exact ⟨rfl, Or.inl ⟨rfl, rfl⟩⟩
  apply (dupArgs_silent argv).seq
  intro copied
  split
  case isFalse => exact ⟨rfl, Or.inl ⟨rfl, rfl⟩⟩
  apply Leaves.perform
  rintro e' piped t _ ⟨⟩
  split
  case isFalse => exact ⟨rfl, Or.inl ⟨rfl, rfl⟩⟩
  apply Leaves.perform
  rintro e'' child t _ ⟨⟩
  refine ⟨rfl, ?_⟩
  by_cases hnone : e'' (.fork path argv cwd) = .none
  · refine Or.inl ⟨?_, ?_⟩
    · show (e'' (.fork path argv cwd)).endOfFile = false
      rw [hnone]
      rfl
    · simp only [actsOf, hnone, if_true]
      rfl
  · refine Or.inr ⟨_, hnone, rfl, ?_⟩
    simp only [actsOf, if_neg hnone]
    rfl

/-- What the updater is started on: the package, and the configured directory, if there is one. -/
structure StartedOn (ctx : UpdateContext) (package : Bytes) (argv : List Bytes) : Prop where
  package : argv[2]? = some package
  target : ∀ dir, ctx.installDir = some dir → dir ≠ [] → pathIsAbsolute dir = true → argv[4]? = some dir

theorem spawnUpdater_ends (pkgCopy : Bytes) (installCopy : Option Bytes) (s : LibState) :
    Ends A (spawnUpdater pkgCopy installCopy)
      (fun r tr t => t = s ∧ ((r = false ∧ tr = []) ∨ ∃ path argv cwd child, child ≠ .none ∧ r = child.endOfFile
        ∧ tr = [.forked path argv cwd child] ∧ argv[2]? = some pkgCopy
        ∧ ∀ dir, installCopy = some dir → pathIsAbsolute dir = true → argv[4]? = some dir)) s := by
  apply (spawnPaths_ends installCopy s).seq
  rintro r tr t ⟨rfl, rfl, hinst⟩
  split
  · exact ⟨rfl, Or.inl ⟨rfl, rfl⟩⟩
  next p =>
  apply Leaves.perform
  rintro e pid t _ ⟨⟩
  split
  · exact ⟨rfl, Or.inl ⟨rfl, rfl⟩⟩
  next pidBuf _ =>
  apply (platformProcessSpawnWithCwd_ends _ _ _ _).mono
  rintro r tr t ⟨rfl, ⟨rfl, rfl⟩ | ⟨child, hborn, rfl, rfl⟩⟩
  · exact ⟨rfl, Or.inl ⟨rfl, rfl⟩⟩
  · refine ⟨rfl, Or.inr ⟨p.updaterPath, spawnArgv p pkgCopy pidBuf, p.exeDir, child, hborn, rfl, rfl, rfl, ?_⟩⟩
    intro dir hdir habs
    rw [← hinst dir hdir habs p rfl]
    rfl

/-- What `update_apply_spawn` does in its section and behind it: it makes no child, or one, on the package, with the
    install directory of the context that it reads. -/
structure ApplySpawned (packagePath : Bytes) (s : LibState) (r : Bool) (tr : List Act) (t : LibState) : Prop where
  fs : t.fs = s.fs
  acts : ∃ calls, t.session = runCalls calls s.session
    ∧ ((r = false ∧ tr = [.locked .updateApplySpawn calls t.session])
      ∨ ∃ path argv cwd child, child ≠ .none ∧ r = child.endOfFile
        ∧ tr = [.locked .updateApplySpawn calls t.session, .forked path argv cwd child]
        ∧ t.session.ctx.initialized = true ∧ StartedOn t.session.ctx packagePath argv)

/-- **`update_apply_spawn`** makes at most one child. -/
theorem updateApplySpawn_ends {packagePath : Bytes} (habs : pathIsAbsolute packagePath = true) (s : LibState) :
    Ends A (updateApplySpawn packagePath) (ApplySpawned packagePath s) s := by
  apply Leaves.perform
  rintro e ctx t _ ⟨⟩
  have hstop (t : LibState) (hfs : t.fs = s.fs)
      (hsession : t.session = runCalls (e (.locked .updateApplySpawn)) s.session) :
      Ends A (pure false) (fun r tr t => ApplySpawned packagePath s r
        (actsOf ⟨.locked .updateApplySpawn, e, s⟩ ++ tr) t) t := by
    refine ⟨hfs, e (.locked .updateApplySpawn), hsession, Or.inl ⟨rfl, ?_⟩⟩
    rw [hsession]
    rfl
  split
  · exact hstop _ rfl rfl
  next hok =>
  have hinit : (runCalls (e (.locked .updateApplySpawn)) s.session).ctx.initialized = true := by
    simp only [Bool.or_eq_true, Bool.not_eq_true', not_or, Bool.not_eq_false] at hok
    exact hok.1.1
  apply (dupInstallDir_silent _).seq
  intro installGiven
  split
  case isFalse => exact hstop _ rfl rfl
  apply (makeAbsolute_ends packagePath _).seq
  rintro r tr t ⟨rfl, rfl, hpkg⟩
  split
  · exact hstop _ rfl rfl
  next pkgAbs =>
  cases hpkg habs pkgAbs rfl
  split
  · exact hstop _ rfl rfl
  apply (dupStr_ends packagePath _).seq
  rintro r tr t ⟨rfl, rfl, hcopy⟩
  split
  · exact hstop _ rfl rfl
  next pkgCopy =>
  cases hcopy pkgCopy rfl
  apply (installTarget_ends _ _).seq
  rintro r tr t ⟨rfl, rfl, htarget⟩
  split
  · exact hstop _ rfl rfl
  next installCopy =>
  apply (spawnUpdater_ends _ installCopy _).mono
  rintro r tr t ⟨rfl, ⟨rfl, rfl⟩ | ⟨path, argv, cwd, child, hborn, rfl, rfl, hpackage, hinst⟩⟩
  · exact ⟨rfl, e (.locked .updateApplySpawn), rfl, Or.inl ⟨rfl, rfl⟩⟩
  · refine ⟨rfl, e (.locked .updateApplySpawn), rfl, Or.inr ⟨path, argv, cwd, child, hborn, rfl, rfl, hinit, hpackage,
      fun dir hdir hne hdirabs => ?_⟩⟩
    exact hinst dir (htarget dir hdir hne hdirabs installCopy rfl) hdirabs

end

end LibUpdate
