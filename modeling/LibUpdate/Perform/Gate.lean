import LibUpdate.Perform.Runs

/-!
# `Perform.Gate` — nothing is started that was not verified

The two theorems about a run that is given a package: without calls of other threads every check stands before
the updater is started, and a run that does not start it cleans up, as far as the parent learns what becomes of the
child and the comparison of versions goes; and how far the digest that is pinned in the options binds the package.
-/

namespace LibUpdate

/-- The calls that a trace shows before a section are those of the outcome. -/
theorem locked_mem_actsOf {ev : Event LibOp LibOutcome LibState} {sec : CtxSection} {calls : List ApiCall}
    {session : Session} (h : Act.locked sec calls session ∈ actsOf ev) : calls = ev.outcome (.locked sec) := by
  obtain ⟨op, e, s⟩ := ev
  cases op with
  | locked sec' =>
      cases List.mem_singleton.mp h
      rfl
  | fetch url =>
      obtain ⟨body, _, hact⟩ := Option.map_eq_some_iff.mp (Option.mem_toList.mp h)
      cases hact
  | createDirectory path =>
      simp only [actsOf] at h
      split at h
      · cases List.mem_singleton.mp h
      · cases h
  | streamDownload url path =>
      simp only [actsOf] at h
      split at h
      · split at h
        · cases List.mem_singleton.mp h
        · cases h
      · cases h
  | readFile path =>
      simp only [actsOf] at h
      split at h
      · cases List.mem_singleton.mp h
      · cases h
  | verifySignature v path => cases List.mem_singleton.mp h
  | fork path argv cwd =>
      simp only [actsOf] at h
      split at h
      · cases h
      · cases List.mem_singleton.mp h
  | malloc | manifestMemory | getenvTmpdir | time | getpid | removePath | getcwd | readlinkExe | pipe => cases h

/-- Where no other thread calls the library, no calls are shown. -/
theorem calls_eq_nil_of_quiet {fuel : Nat} {version : Bytes} {es : List LibOutcome} {s : LibState}
    (hquiet : ∀ e ∈ es, ∀ sec, e (.locked sec) = []) {sec : CtxSection} {calls : List ApiCall} {session : Session}
    (h : Act.locked sec calls session ∈ (libDevice.run (updatePerform fuel version) es s).trace actsOf) :
    calls = [] := by
  obtain ⟨ev, hev, hact⟩ := List.mem_flatMap.mp h
  rw [locked_mem_actsOf hact]
  exact hquiet _ (libDevice.outcome_mem hev) sec

/-- What a run that returns has done, whatever the other threads did. -/
theorem updatePerform_run {A : Event LibOp LibOutcome LibState → Prop} {fuel : Nat} {version : Bytes}
    {es : List LibOutcome} {s : LibState}
    (hA : ∀ ev ∈ (libDevice.run (updatePerform fuel version) es s).events, A ev) {r : Option UpdateStatus}
    (hr : (libDevice.run (updatePerform fuel version) es s).result = some r) :
    (∃ rec : ForkRecord, rec.Valid s.session fuel version
        ∧ (libDevice.run (updatePerform fuel version) es s).trace actsOf = rec.trace s.session
        ∧ rec.Returns A r (libDevice.run (updatePerform fuel version) es s).final)
      ∨ NotForked A r ((libDevice.run (updatePerform fuel version) es s).trace actsOf)
          (libDevice.run (updatePerform fuel version) es s).final :=
  (updatePerform_ends fuel version s).sound hA hr

/-- What a run has done that says it has started the updater, or has made a child for it. -/
theorem updatePerform_forked {fuel : Nat} {version : Bytes} {es : List LibOutcome} {s : LibState}
    {r : Option UpdateStatus} (hr : (libDevice.run (updatePerform fuel version) es s).result = some r)
    (hforked : r = some .started ∨ ∃ path argv cwd child,
      Act.forked path argv cwd child ∈ (libDevice.run (updatePerform fuel version) es s).trace actsOf) :
    ∃ rec : ForkRecord, rec.Valid s.session fuel version
      ∧ (libDevice.run (updatePerform fuel version) es s).trace actsOf = rec.trace s.session
      ∧ rec.Returns (fun _ => True) r (libDevice.run (updatePerform fuel version) es s).final := by
  rcases updatePerform_run (A := fun _ => True) (fun _ _ => trivial) hr with hrec | h
  · exact hrec
  · rcases hforked with hstarted | ⟨path, argv, cwd, child, hmem⟩
    · exact absurd hstarted h.status
    · exact absurd hmem (h.forked path argv cwd child)

theorem ForkRecord.forked_mem_trace {r : ForkRecord} {s : Session} {path : Bytes} {argv : List Bytes} {cwd : Bytes}
    {child : Child} :
    Act.forked path argv cwd child ∈ r.trace s
      ↔ path = r.path ∧ argv = r.argv ∧ cwd = r.cwd ∧ child = r.child := by
  simp [trace, approval]

theorem ForkRecord.fetched_mem_trace {r : ForkRecord} {s : Session} {url body : Bytes} :
    Act.fetched url body ∈ r.trace s ↔ url = r.url ∧ body = r.body := by
  simp [trace, approval]

/-! ## What a manifest says -/

/-- A manifest that was read was read as a whole. -/
theorem manifestRead_of_parsed {alloc : ManifestAlloc} {fuel : Nat} {body : Bytes} {info : UpdateInfo}
    (h : updateManifestParse alloc fuel (cstr body) = some (0, info)) : ManifestRead (cstr body) info := by
  rcases updateManifestParse_allOrNothing (nul_not_mem_cstr body) h with ⟨_, hread⟩ | ⟨hrc, _⟩
  · exact hread
  · cases hrc

/-- What a member of the manifest holds is its value. -/
theorem HoldsValue.value {cap : Nat} {body key : Bytes} {a : Vector UInt8 cap} (h : HoldsValue body key a) :
    jsonStringValue body key = some (cstr a.toList) := by
  obtain ⟨v, hv, _, hcstr⟩ := h
  rw [hv, hcstr]

/-! ## The gate -/

/-- What verification before the start means: a run that returns `UPDATE_STARTED` has fetched the manifest of a
    strictly newer version, has hashed the package that it downloaded to the checksum of the manifest, has then asked
    the registered verifier, if there is one, which approved, and has then started one updater, on this package. A
    run that returns anything else has started none, and the work directory that it made is gone. -/
structure Gated (fuel : Nat) (version : Bytes) (session : Session) (status : UpdateStatus) (tr : List Act) (fs : Fs) :
    Prop where
  started : status = .started → ∃ url body info workdir package content path argv cwd,
    tr = [.locked .updateCheck [] session, .fetched url body, .locked .updatePerform [] session,
        .created workdir, .downloaded (cstr info.downloadUrl.toList) package content, .read package content,
        .locked .signatureCb [] session]
      ++ (session.ctx.verifier.map fun v => Act.verified v package 0).toList
      ++ [.locked .updateApplySpawn [] session, .forked path argv cwd .running]
    ∧ (∃ alloc, updateManifestParse alloc fuel (cstr body) = some (0, info))
    ∧ StrictlyNewer (cstr info.version.toList) version
    ∧ HasDigest content (cstr info.checksum.toList)
    ∧ argv[2]? = some package
    ∧ dataAt fs (fsPath package) = some content
  clean : status ≠ .started →
    (∀ path argv cwd child, Act.forked path argv cwd child ∈ tr → child.runs = false)
      ∧ ∀ dir, Act.created dir ∈ tr → fs.get (fsPath dir) = none

/-- The comparison of 32-bit numbers does not take the version of the manifest for a newer one than it is. -/
def ComparedAsWritten (version body : Bytes) : Prop :=
  ∀ v, jsonStringValue (cstr body) (ascii "version") = some v → NewerAsRead v version → StrictlyNewer v version

/-- The parent learns what becomes of the child, and where the program runs, the version of the manifest is compared
    as it is written. -/
structure Untroubled (version : Bytes) (tr : List Act) : Prop where
  told : ∀ path argv cwd child, Act.forked path argv cwd child ∈ tr → child ≠ .lost ∧ child ≠ .unseen
  compared : ∀ path argv cwd url body, Act.forked path argv cwd .running ∈ tr → Act.fetched url body ∈ tr →
    ComparedAsWritten version body

/-- The trace of a record without calls of other threads. -/
theorem ForkRecord.trace_quiet {r : ForkRecord} {s : Session}
    (hquiet : ∀ sec calls session, Act.locked sec calls session ∈ r.trace s → calls = []) :
    r.trace s
      = [.locked .updateCheck [] s, .fetched r.url r.body, .locked .updatePerform [] s, .created r.workdir,
          .downloaded (cstr r.info.downloadUrl.toList) r.package r.content, .read r.package r.content,
          .locked .signatureCb [] s]
        ++ (s.ctx.verifier.map fun v => Act.verified v r.package 0).toList
        ++ [.locked .updateApplySpawn [] s, .forked r.path r.argv r.cwd r.child] := by
  have hcheck := hquiet .updateCheck r.callsCheck (r.checked s) (by simp [trace])
  have hperform := hquiet .updatePerform r.callsPerform (r.prepared s) (by simp [trace])
  have hsignature := hquiet .signatureCb r.callsSignature (r.signed s) (by simp [trace])
  have happly := hquiet .updateApplySpawn r.callsApply (r.applied s) (by simp [trace])
  simp only [trace, approval, applied, signed, prepared, checked, hcheck, hperform, hsignature, happly, runCalls_nil]

section Record

variable {r : ForkRecord} {s : Session} {fuel : Nat} {version : Bytes} {A : Event LibOp LibOutcome LibState → Prop}
  {status : UpdateStatus} {t : LibState}

theorem ForkRecord.forked_mem : Act.forked r.path r.argv r.cwd r.child ∈ r.trace s :=
  forked_mem_trace.mpr ⟨rfl, rfl, rfl, rfl⟩

/-- A gated record that takes the end of the pipe for a start shows a child that runs, and a newer version: it
    returns `UPDATE_STARTED`, and it shows one child only. -/
theorem ForkRecord.running_of_gated (hreturns : r.Returns A (some status) t)
    (h : Gated fuel version s status (r.trace s) t.fs) (hend : r.child.endOfFile = true) :
    r.child = .running ∧ ComparedAsWritten version r.body := by
  obtain ⟨url, body, info, _, _, _, path, argv, cwd, htrace, ⟨alloc, hread⟩, hnewer, _⟩ :=
    h.started (Option.some.inj (hreturns.started hend).1)
  have hchild : Act.forked path argv cwd .running ∈ r.trace s := by
    rw [htrace]
    simp
  have hfetched : Act.fetched url body ∈ r.trace s := by
    rw [htrace]
    simp
  obtain ⟨-, -, -, hchild⟩ := forked_mem_trace.mp hchild
  obtain ⟨-, rfl⟩ := fetched_mem_trace.mp hfetched
  refine ⟨hchild.symm, fun v hv _ => ?_⟩
  cases (manifestRead_of_parsed hread).version.value.symm.trans hv
  exact hnewer

theorem ForkRecord.untroubled_of_gated (hreturns : r.Returns A (some status) t)
    (h : Gated fuel version s status (r.trace s) t.fs) : Untroubled version (r.trace s) := by
  refine ⟨?_, ?_⟩
  · intro path argv cwd child hmem
    obtain ⟨-, -, -, rfl⟩ := forked_mem_trace.mp hmem
    constructor
    · intro hlost
      rw [(running_of_gated hreturns h (by rw [hlost]; rfl)).1] at hlost
      cases hlost
    · intro hunseen
      have herror : some status = some .error := (hreturns.failed (by rw [hunseen]; rfl)).1
      have hruns := (h.clean (by rw [Option.some.inj herror]; decide)).1 _ _ _ _ forked_mem
      rw [hunseen] at hruns
      cases hruns
  · intro path argv cwd url body hmem hfetched
    obtain ⟨-, -, -, hchild⟩ := forked_mem_trace.mp hmem
    obtain ⟨-, rfl⟩ := fetched_mem_trace.mp hfetched
    exact (running_of_gated hreturns h (by rw [← hchild]; rfl)).2

theorem ForkRecord.gated_of_untroubled (hvalid : r.Valid s fuel version) (hreturns : r.Returns A (some status) t)
    (hA : Removes A) (hquiet : ∀ sec calls session, Act.locked sec calls session ∈ r.trace s → calls = [])
    (h : Untroubled version (r.trace s)) : Gated fuel version s status (r.trace s) t.fs := by
  obtain ⟨alloc, hparse⟩ := hvalid.manifest.parsed
  obtain ⟨hlost, hunseen⟩ := h.told _ _ _ _ forked_mem
  cases hend : r.child.endOfFile with
  | true =>
      have hchild : r.child = .running := by
        cases hc : r.child <;> simp_all [Child.endOfFile]
      have hcompared : ComparedAsWritten version r.body :=
        h.compared _ _ _ _ _ (hchild ▸ forked_mem) (fetched_mem_trace.mpr ⟨rfl, rfl⟩)
      obtain ⟨hstatus, hdata⟩ := hreturns.started hend
      cases hstatus
      refine ⟨fun _ => ⟨r.url, r.body, r.info, r.workdir, r.package, r.content, r.path, r.argv, r.cwd, ?_,
        ⟨alloc, hparse⟩, ?_, hvalid.digest, hvalid.started.package, hdata⟩, fun hne => absurd rfl hne⟩
      · rw [trace_quiet hquiet, hchild]
      · exact hcompared _ (manifestRead_of_parsed hparse).version.value hvalid.manifest.newer
  | false =>
      obtain ⟨hstatus, hgone⟩ := hreturns.failed hend
      cases hstatus
      refine ⟨(fun hstarted => by cases hstarted), fun _ => ⟨?_, ?_⟩⟩
      · intro path argv cwd child hmem
        obtain ⟨-, -, -, rfl⟩ := forked_mem_trace.mp hmem
        cases hc : r.child <;> simp_all [Child.endOfFile, Child.runs]
      · intro dir hmem
        have hdir : dir = r.workdir := by simpa [trace, approval] using hmem
        rw [hdir]
        exact hgone hA

/-- A record without calls of other threads is gated where it is untroubled, and only there. -/
theorem ForkRecord.gated_iff (hvalid : r.Valid s fuel version) (hreturns : r.Returns A (some status) t)
    (hA : Removes A) (hquiet : ∀ sec calls session, Act.locked sec calls session ∈ r.trace s → calls = []) :
    Gated fuel version s status (r.trace s) t.fs ↔ Untroubled version (r.trace s) :=
  ⟨untroubled_of_gated hreturns, gated_of_untroubled hvalid hreturns hA hquiet⟩

end Record

/-- A manifest of version 2.0.0, for the package `abc`. -/
def abcManifest : Bytes :=
  ascii "\x7b\"version\":\"2.0.0\",\"download_url\":\"http://h/p\",\"checksum\":" ++
    ascii "\"ba7816bf8f01cfea414140de5dae2223b00361a396177a9cb410ff61f20015ad\"\x7d"

/-- Everything succeeds, and no other thread calls the library. -/
def abcOutcome : LibOutcome
  | .locked _ => []
  | .malloc _ => true
  | .manifestMemory => ⟨memory, memory⟩
  | .fetch _ => some abcManifest
  | .getenvTmpdir => none
  | .time => 0
  | .getpid => 1
  | .createDirectory _ => [okOutcome, okOutcome]
  | .streamDownload _ _ => .complete ⟨ascii "abc", 0o644⟩
  | .readFile _ => .complete
  | .removePath _ => okOutcome
  | .verifySignature _ _ => 0
  | .getcwd => none
  | .readlinkExe => some (ascii "/a/app")
  | .pipe => true
  | .fork _ _ _ => .running

/-- A pin that is not the digest of `abc`. -/
def zeroPin : Bytes := .replicate 64 (ch '0')

/-- An application that has pinned this digest and has registered a verifier. -/
def pinnedState : LibState :=
  ⟨runCalls [.init ⟨some (ascii "http://h/m"), some (ascii "app"), none, none, none, some zeroPin⟩ memory,
    .setVerifier (some 7) 0] ⟨.zero, 0⟩, []⟩

abbrev abcRun : Run LibOp LibOutcome LibState (Option UpdateStatus) :=
  libDevice.run (updatePerform 8 (ascii "1.9")) (.replicate 40 abcOutcome) pinnedState

/-- The package that a child is made for, and what becomes of the child. -/
def Act.forkedOn : Act → Option (Bytes × Child)
  | .forked _ argv _ child => argv[2]?.map (·, child)
  | _ => none

/-- The updater is started, on `abc`. -/
theorem abcRun_started :
    abcRun.result = some (some .started)
      ∧ dataAt abcRun.final.fs (fsPath (ascii "/tmp/libupdate_1000000/package.bin")) = some (ascii "abc")
      ∧ (abcRun.trace actsOf).filterMap Act.forkedOn
          = [(ascii "/tmp/libupdate_1000000/package.bin", .running)] := by
  decide +kernel

/-- What is seen of a child is an act of the trace. -/
theorem forked_of_forkedOn {tr : List Act} {package : Bytes} {child : Child}
    (h : (package, child) ∈ tr.filterMap Act.forkedOn) :
    ∃ path argv cwd, Act.forked path argv cwd child ∈ tr ∧ argv[2]? = some package := by
  obtain ⟨act, hact, hon⟩ := List.mem_filterMap.mp h
  cases act with
  | forked path argv cwd child' =>
      obtain ⟨package', hpackage, heq⟩ := Option.map_eq_some_iff.mp hon
      cases heq
      exact ⟨path, argv, cwd, hact, hpackage⟩
  | _ => cases hon

/-- Everything succeeds, up to what becomes of the child. -/
def childOutcome (child : Child) : LibOutcome
  | .fork _ _ _ => child
  | o => abcOutcome o

/-- Everything succeeds, with a manifest of version 1. -/
def oldOutcome : LibOutcome
  | .fetch _ => some (ascii "\x7b\"version\":\"1\",\"download_url\":\"http://h/p\",\"checksum\":" ++
      ascii "\"ba7816bf8f01cfea414140de5dae2223b00361a396177a9cb410ff61f20015ad\"\x7d")
  | o => abcOutcome o

/-- A run of the version with these outcomes. -/
abbrev runOf (version : Bytes) (outcome : LibOutcome) : Run LibOp LibOutcome LibState (Option UpdateStatus) :=
  libDevice.run (updatePerform 8 version) (.replicate 40 outcome) pinnedState

/-- The version of the manifest that is fetched. -/
def Act.fetchedVersion : Act → Option Bytes
  | .fetched _ body => jsonStringValue (cstr body) (ascii "version")
  | _ => none

/-- A gated run that has started the updater shows a child that runs, and the fetch of a strictly newer version. -/
theorem Gated.shows {fuel : Nat} {version : Bytes} {session : Session} {tr : List Act} {fs : Fs}
    (h : Gated fuel version session .started tr fs) :
    (∃ package, (package, Child.running) ∈ tr.filterMap Act.forkedOn)
      ∧ ∃ v, v ∈ tr.filterMap Act.fetchedVersion ∧ StrictlyNewer v version := by
  obtain ⟨url, body, info, _, package, _, path, argv, cwd, htrace, ⟨alloc, hread⟩, hnewer, _, hpackage, _⟩ :=
    h.started rfl
  have hversion := (manifestRead_of_parsed hread).version.value
  refine ⟨⟨package, List.mem_filterMap.mpr ⟨.forked path argv cwd .running, ?_, ?_⟩⟩,
    _, List.mem_filterMap.mpr ⟨.fetched url body, ?_, hversion⟩, hnewer⟩
  · rw [htrace]
    simp
  · rw [Act.forkedOn, hpackage]
    rfl
  · rw [htrace]
    simp

theorem lostRun_started :
    (runOf (ascii "1.9") (childOutcome .lost)).result = some (some .started)
      ∧ ((runOf (ascii "1.9") (childOutcome .lost)).trace actsOf).filterMap Act.forkedOn
          = [(ascii "/tmp/libupdate_1000000/package.bin", .lost)] := by
  decide +kernel

theorem unseenRun_failed :
    (runOf (ascii "1.9") (childOutcome .unseen)).result = some (some .error)
      ∧ ((runOf (ascii "1.9") (childOutcome .unseen)).trace actsOf).filterMap Act.forkedOn
          = [(ascii "/tmp/libupdate_1000000/package.bin", .unseen)] := by
  decide +kernel

theorem oldRun_started :
    (runOf (ascii "4294967296") oldOutcome).result = some (some .started)
      ∧ ((runOf (ascii "4294967296") oldOutcome).trace actsOf).filterMap Act.fetchedVersion = [ascii "1"] := by
  decide +kernel

theorem not_strictlyNewer_old : ¬ StrictlyNewer (ascii "1") (ascii "4294967296") := by
  rintro ⟨r, hr, hless⟩
  have hone : writtenVersion (ascii "1") = some ⟨1, 0, 0⟩ := by decide +kernel
  have hlocal : (writtenVersion (ascii "4294967296")).getD ⟨0, 0, 0⟩ = ⟨4294967296, 0, 0⟩ := by decide +kernel
  cases hone.symm.trans hr
  rw [hlocal] at hless
  exact absurd hless (by decide)

/-- The digest that the options pin, if they do, is the digest of the message. -/
def PinBinds (ctx : UpdateContext) (m : Fips180.Message) : Prop :=
  ∀ pin, ctx.expectedSha256 = some pin → pin ≠ [] → parseSha256Hex pin = some m.digest

/-- The digest that the options pin, if they do, is the one that the manifest gives as its checksum. -/
def PinIsChecksum (ctx : UpdateContext) (body : Bytes) : Prop :=
  ∀ pin, ctx.expectedSha256 = some pin → pin ≠ [] →
    ∃ checksum d, jsonStringValue (cstr body) (ascii "checksum") = some checksum
      ∧ parseSha256Hex checksum = some d ∧ parseSha256Hex pin = some d

/-- **How far a pin binds.** A run that returns `UPDATE_STARTED` has made a child for the updater. In a run that has
    made one, whatever became of it, the pinned digest is the digest of the package exactly if it is the checksum
    that the manifest gives: the package is hashed to that checksum only. -/
theorem updatePerform_pin_iff (fuel : Nat) (version : Bytes) (es : List LibOutcome) (s : LibState)
    (status : Option UpdateStatus)
    (hreturn : (libDevice.run (updatePerform fuel version) es s).result = some status) :
    (status = some .started → ∃ path argv cwd child,
        Act.forked path argv cwd child ∈ (libDevice.run (updatePerform fuel version) es s).trace actsOf)
      ∧ ∀ path argv cwd child,
        Act.forked path argv cwd child ∈ (libDevice.run (updatePerform fuel version) es s).trace actsOf →
        ∃ calls session url body package content,
          Act.locked .updateCheck calls session ∈ (libDevice.run (updatePerform fuel version) es s).trace actsOf
          ∧ Act.fetched url body ∈ (libDevice.run (updatePerform fuel version) es s).trace actsOf
          ∧ argv[2]? = some package
          ∧ Act.read package content ∈ (libDevice.run (updatePerform fuel version) es s).trace actsOf
          ∧ (status = some .started →
            dataAt (libDevice.run (updatePerform fuel version) es s).final.fs (fsPath package) = some content)
          ∧ ∀ m : Fips180.Message, m.bytes = content → (PinBinds session.ctx m ↔ PinIsChecksum session.ctx body) := by
  constructor
  · intro hstarted
    obtain ⟨rec, _, htrace, _⟩ := updatePerform_forked hreturn (Or.inl hstarted)
    rw [htrace]
    exact ⟨_, _, _, _, ForkRecord.forked_mem_trace.mpr ⟨rfl, rfl, rfl, rfl⟩⟩
  intro path argv cwd child hforked
  obtain ⟨rec, hvalid, htrace, hreturns⟩ := updatePerform_forked hreturn (Or.inr ⟨_, _, _, _, hforked⟩)
  rw [htrace] at hforked ⊢
  obtain ⟨-, rfl, -, -⟩ := ForkRecord.forked_mem_trace.mp hforked
  refine ⟨rec.callsCheck, rec.checked s.session, rec.url, rec.body, rec.package, rec.content, ?_, ?_,
    hvalid.started.package, ?_, fun hstarted => ?_, ?_⟩
  · simp [ForkRecord.trace]
  · simp [ForkRecord.trace]
  · simp [ForkRecord.trace]
  · cases hend : rec.child.endOfFile with
    | true => exact (hreturns.started hend).2
    | false =>
        rw [(hreturns.failed hend).1] at hstarted
        cases hstarted
  intro m hm
  obtain ⟨alloc, hparse⟩ := hvalid.manifest.parsed
  have hchecksum := (manifestRead_of_parsed hparse).checksum.value
  have hdigest := hvalid.digest m hm
  constructor
  · intro hbinds pin hpin hne
    exact ⟨_, _, hchecksum, hdigest, hbinds pin hpin hne⟩
  · intro hsame pin hpin hne
    obtain ⟨checksum, d, hvalue, hparse, hpin⟩ := hsame pin hpin hne
    cases hchecksum.symm.trans hvalue
    rw [hpin, ← hparse, hdigest]

/-- A run that starts the updater on `abc`, with this pin. -/
theorem updatePerform_pin_iff_abc :
    ∃ session url body, ∃ m : Fips180.Message, m.bytes = ascii "abc"
      ∧ Act.fetched url body ∈ abcRun.trace actsOf ∧ (PinBinds session m ↔ PinIsChecksum session body) := by
  have hmem : (ascii "/tmp/libupdate_1000000/package.bin", Child.running)
      ∈ (abcRun.trace actsOf).filterMap Act.forkedOn := by
    rw [abcRun_started.2.2]
    exact List.mem_singleton.mpr rfl
  obtain ⟨path, argv, cwd, hforked, hargv⟩ := forked_of_forkedOn hmem
  obtain ⟨calls, session, url, body, package, content, _, hbody, hpackage, _, hdata, hiff⟩ :=
    (updatePerform_pin_iff 8 (ascii "1.9") (.replicate 40 abcOutcome) pinnedState _ abcRun_started.1).2
      path argv cwd .running hforked
  cases hargv.symm.trans hpackage
  cases abcRun_started.2.1.symm.trans (hdata rfl)
  exact ⟨session.ctx, url, body, ⟨ascii "abc", by decide⟩, rfl, hbody, hiff _ rfl⟩

/-- `update_verify` accepts `abc` with its digest. -/
theorem hasDigest_abc :
    HasDigest (ascii "abc") (ascii "ba7816bf8f01cfea414140de5dae2223b00361a396177a9cb410ff61f20015ad") := by
  have hcheck : ((parseSha256Hex (ascii "ba7816bf8f01cfea414140de5dae2223b00361a396177a9cb410ff61f20015ad")).bind
      fun expectBin => (hashBlocks 8 (ascii "abc")).map fun ctx =>
        sha256DigestEqualsCt (Sha256.sha256Final ctx (.replicate 32 0)) expectBin) = some 0 := by
    decide +kernel
  obtain ⟨expectBin, hparse, hmap⟩ := Option.bind_eq_some_iff.mp hcheck
  obtain ⟨ctx, hhash, heq⟩ := Option.map_eq_some_iff.mp hmap
  exact hasDigest_of_equal hparse hhash heq

/-- **The pin is not enforced**: the updater is started on a package with another digest than the pinned one. -/
theorem updatePerform_ignores_pin :
    ∃ m : Fips180.Message,
      abcRun.result = some (some .started)
      ∧ dataAt abcRun.final.fs (fsPath (ascii "/tmp/libupdate_1000000/package.bin")) = some m.bytes
      ∧ pinnedState.session.ctx.expectedSha256 = some zeroPin ∧ parseSha256Hex zeroPin ≠ some m.digest := by
  refine ⟨⟨ascii "abc", by decide⟩, abcRun_started.1, abcRun_started.2.1, by decide +kernel, ?_⟩
  rw [← hasDigest_abc ⟨ascii "abc", by decide⟩ rfl]
  decide +kernel

end LibUpdate
