import LibUpdate.Perform.Gate

/-!
# `Perform.Configuration` — one run, one configuration

`update_perform` takes the lock four times and reads the context anew each time. Between two sections other
threads may shut the library down, initialise it again or register another verifier. `OneConfiguration` says
what a run should be; `Undisturbed` says which calls of the other threads leave it so.
-/

namespace LibUpdate

/-- A run that makes a child for the updater acts on one configuration. -/
structure OneConfiguration (tr : List Act) : Prop where
  /-- The verifier that was registered when the run began has approved the package. -/
  approved : ∀ calls session v, Act.locked .updateCheck calls session ∈ tr → session.ctx.verifier = some v →
    ∃ package path argv cwd child, Act.verified v package 0 ∈ tr ∧ Act.forked path argv cwd child ∈ tr
      ∧ argv[2]? = some package
  /-- The URL, the verifier and the install directory come from the same initialisation. -/
  same : ∀ sec₁ calls₁ s₁ sec₂ calls₂ s₂, Act.locked sec₁ calls₁ s₁ ∈ tr → Act.locked sec₂ calls₂ s₂ ∈ tr →
    sec₁ ≠ .updatePerform → sec₂ ≠ .updatePerform → Session.SameInit s₁ s₂

/-- After the first section no other thread shuts the library down, and up to the section that takes the verifier
    the last one to register a verifier registers the one that there was, if there was one. -/
structure Undisturbed (tr : List Act) : Prop where
  no_shutdown : ∀ sec calls session, Act.locked sec calls session ∈ tr → sec ≠ .updateCheck →
    ApiCall.shutdown ∉ calls
  verifier : ∀ calls₁ s₁ calls₂ s₂ calls₃ s₃ v, Act.locked .updateCheck calls₁ s₁ ∈ tr →
    Act.locked .updatePerform calls₂ s₂ ∈ tr → Act.locked .signatureCb calls₃ s₃ ∈ tr →
    s₁.ctx.verifier = some v → verifierAfter (calls₂ ++ calls₃) (some v) = some v

theorem Session.SameInit.symm {s t : Session} (h : SameInit s t) : SameInit t s :=
  ⟨h.inits.symm, h.initialized.symm, h.updateUrl.symm, h.appName.symm, h.installDir.symm, h.tempDir.symm,
    h.channel.symm, h.expectedSha256.symm⟩

namespace ForkRecord

variable {r : ForkRecord} {s : Session}

/-- The sections of a record. -/
theorem locked_mem_trace {sec : CtxSection} {calls : List ApiCall} {session : Session} :
    Act.locked sec calls session ∈ r.trace s
      ↔ (sec = .updateCheck ∧ calls = r.callsCheck ∧ session = r.checked s)
        ∨ (sec = .updatePerform ∧ calls = r.callsPerform ∧ session = r.prepared s)
        ∨ (sec = .signatureCb ∧ calls = r.callsSignature ∧ session = r.signed s)
        ∨ (sec = .updateApplySpawn ∧ calls = r.callsApply ∧ session = r.applied s) := by
  simp [trace, approval]

theorem verified_mem_trace {v : Verifier} {package : Bytes} {answer : Int} :
    Act.verified v package answer ∈ r.trace s
      ↔ (r.signed s).ctx.verifier = some v ∧ package = r.package ∧ answer = 0 := by
  cases hv : (r.signed s).ctx.verifier with
  | none => simp [trace, approval, hv]
  | some w => simp [trace, approval, hv, eq_comm]

/-- What the calls make of the first section's session, up to the section that takes the verifier. -/
theorem signed_eq (r : ForkRecord) (s : Session) :
    r.signed s = runCalls (r.callsPerform ++ r.callsSignature) (r.checked s) := by
  rw [runCalls_append]
  rfl

theorem applied_eq (r : ForkRecord) (s : Session) :
    r.applied s = runCalls (r.callsPerform ++ r.callsSignature ++ r.callsApply) (r.checked s) := by
  rw [runCalls_append, ← signed_eq]
  rfl

/-- The law, of the sessions of a record. -/
theorem oneConfiguration_iff (hpackage : r.argv[2]? = some r.package) :
    OneConfiguration (r.trace s)
      ↔ (∀ v, (r.checked s).ctx.verifier = some v → (r.signed s).ctx.verifier = some v)
        ∧ Session.SameInit (r.checked s) (r.signed s) ∧ Session.SameInit (r.checked s) (r.applied s) := by
  have hcheck : Act.locked .updateCheck r.callsCheck (r.checked s) ∈ r.trace s :=
    locked_mem_trace.mpr (Or.inl ⟨rfl, rfl, rfl⟩)
  constructor
  · intro h
    refine ⟨fun v hv => ?_, ?_, ?_⟩
    · obtain ⟨_, _, _, _, _, hverified, _⟩ := h.approved _ _ v hcheck hv
      exact (verified_mem_trace.mp hverified).1
    · exact h.same _ _ _ .signatureCb r.callsSignature _ hcheck
        (locked_mem_trace.mpr (Or.inr (Or.inr (Or.inl ⟨rfl, rfl, rfl⟩)))) (by decide) (by decide)
    · exact h.same _ _ _ .updateApplySpawn r.callsApply _ hcheck
        (locked_mem_trace.mpr (Or.inr (Or.inr (Or.inr ⟨rfl, rfl, rfl⟩)))) (by decide) (by decide)
  · rintro ⟨hverifier, hsigned, happlied⟩
    have hto (sec : CtxSection) (calls : List ApiCall) (session : Session)
        (hmem : Act.locked sec calls session ∈ r.trace s) (hsec : sec ≠ .updatePerform) :
        Session.SameInit (r.checked s) session := by
      rcases locked_mem_trace.mp hmem with ⟨_, _, rfl⟩ | ⟨rfl, _⟩ | ⟨_, _, rfl⟩ | ⟨_, _, rfl⟩
      · exact .refl _
      · exact absurd rfl hsec
      · exact hsigned
      · exact happlied
    constructor
    · intro calls session v hmem hv
      rcases locked_mem_trace.mp hmem with ⟨_, _, rfl⟩ | ⟨hsec, _⟩ | ⟨hsec, _⟩ | ⟨hsec, _⟩
      · exact ⟨r.package, r.path, r.argv, r.cwd, r.child, verified_mem_trace.mpr ⟨hverifier v hv, rfl, rfl⟩,
          forked_mem_trace.mpr ⟨rfl, rfl, rfl, rfl⟩, hpackage⟩
      · cases hsec
      · cases hsec
      · cases hsec
    · intro sec₁ calls₁ s₁ sec₂ calls₂ s₂ h₁ h₂ hsec₁ hsec₂
      exact (hto _ _ _ h₁ hsec₁).symm.trans (hto _ _ _ h₂ hsec₂)

/-- The condition, of the calls of a record. -/
theorem undisturbed_iff :
    Undisturbed (r.trace s)
      ↔ ApiCall.shutdown ∉ r.callsPerform ++ r.callsSignature ++ r.callsApply
        ∧ ∀ v, (r.checked s).ctx.verifier = some v →
            verifierAfter (r.callsPerform ++ r.callsSignature) (some v) = some v := by
  have hcheck : Act.locked .updateCheck r.callsCheck (r.checked s) ∈ r.trace s :=
    locked_mem_trace.mpr (Or.inl ⟨rfl, rfl, rfl⟩)
  have hperform : Act.locked .updatePerform r.callsPerform (r.prepared s) ∈ r.trace s :=
    locked_mem_trace.mpr (Or.inr (Or.inl ⟨rfl, rfl, rfl⟩))
  have hsignature : Act.locked .signatureCb r.callsSignature (r.signed s) ∈ r.trace s :=
    locked_mem_trace.mpr (Or.inr (Or.inr (Or.inl ⟨rfl, rfl, rfl⟩)))
  have happly : Act.locked .updateApplySpawn r.callsApply (r.applied s) ∈ r.trace s :=
    locked_mem_trace.mpr (Or.inr (Or.inr (Or.inr ⟨rfl, rfl, rfl⟩)))
  constructor
  · intro h
    refine ⟨?_, fun v hv => h.verifier _ _ _ _ _ _ v hcheck hperform hsignature hv⟩
    simp only [List.mem_append, not_or]
    exact ⟨⟨h.no_shutdown _ _ _ hperform (by decide), h.no_shutdown _ _ _ hsignature (by decide)⟩,
      h.no_shutdown _ _ _ happly (by decide)⟩
  · rintro ⟨hcalls, hverifier⟩
    simp only [List.mem_append, not_or] at hcalls
    constructor
    · intro sec calls session hmem hsec
      rcases locked_mem_trace.mp hmem with ⟨rfl, _⟩ | ⟨_, rfl, _⟩ | ⟨_, rfl, _⟩ | ⟨_, rfl, _⟩
      · exact absurd rfl hsec
      · exact hcalls.1.1
      · exact hcalls.1.2
      · exact hcalls.2
    · intro calls₁ s₁ calls₂ s₂ calls₃ s₃ v h₁ h₂ h₃ hv
      simp only [locked_mem_trace, reduceCtorEq, false_and, or_false, false_or, true_and] at h₁ h₂ h₃
      rw [h₁.2] at hv
      rw [h₂.1, h₃.1]
      exact hverifier v hv

end ForkRecord

/-- **One configuration.** A run that says it has started the updater, or has made a child for it, has acted on one
    configuration exactly if the other threads left it undisturbed. -/
theorem updatePerform_one_configuration_iff (fuel : Nat) (version : Bytes) (es : List LibOutcome) (s : LibState)
    (status : Option UpdateStatus)
    (hreturn : (libDevice.run (updatePerform fuel version) es s).result = some status)
    (hspawns : status = some .started ∨ ∃ path argv cwd child,
      Act.forked path argv cwd child ∈ (libDevice.run (updatePerform fuel version) es s).trace actsOf) :
    OneConfiguration ((libDevice.run (updatePerform fuel version) es s).trace actsOf)
      ↔ Undisturbed ((libDevice.run (updatePerform fuel version) es s).trace actsOf) := by
  obtain ⟨r, hvalid, htrace, _⟩ := updatePerform_forked hreturn hspawns
  have hinit := hvalid.check_initialized
  rw [htrace, ForkRecord.oneConfiguration_iff hvalid.started.package, ForkRecord.undisturbed_iff]
  constructor
  · rintro ⟨hverifier, _, happlied⟩
    -- the first and the last section find the same initialisation, so there was no shutdown between them
    have hcalls : ApiCall.shutdown ∉ r.callsPerform ++ r.callsSignature ++ r.callsApply := by
      have hinits := happlied.inits
      have hend := hvalid.apply_initialized
      rw [ForkRecord.applied_eq] at hinits hend
      exact (runCalls_inits_eq_iff hinit hend).mp hinits
    refine ⟨hcalls, fun v hv => ?_⟩
    have hsigned := (runCalls_keeps hinit (mt (List.mem_append_left r.callsApply) hcalls)).2
    rw [← ForkRecord.signed_eq, hverifier v hv, hv] at hsigned
    exact hsigned.symm
  · rintro ⟨hcalls, hverifier⟩
    have hsigned := runCalls_keeps hinit (mt (List.mem_append_left r.callsApply) hcalls)
    have happlied := (runCalls_keeps hinit hcalls).1
    rw [← ForkRecord.signed_eq] at hsigned
    rw [← ForkRecord.applied_eq] at happlied
    refine ⟨fun v hv => ?_, hsigned.1, happlied⟩
    rw [hsigned.2, hv]
    exact hverifier v hv

/-- Nobody disturbs a run without calls of other threads. -/
theorem updatePerform_one_configuration_abc :
    OneConfiguration (abcRun.trace actsOf) ↔ Undisturbed (abcRun.trace actsOf) :=
  updatePerform_one_configuration_iff 8 (ascii "1.9") (.replicate 40 abcOutcome) pinnedState _ abcRun_started.1
    (Or.inl rfl)

/-- As `abcOutcome`, but after the check another thread shuts the library down and initialises it again, for
    another directory and without a verifier. -/
def reinitOutcome : LibOutcome
  | .locked .updatePerform =>
      [.shutdown,
        .init ⟨some (ascii "http://h/m"), some (ascii "app"), some (ascii "/b"), none, none, none⟩ memory]
  | o => abcOutcome o

abbrev reinitRun : Run LibOp LibOutcome LibState (Option UpdateStatus) :=
  libDevice.run (updatePerform 8 (ascii "1.9")) (.replicate 40 reinitOutcome) pinnedState

/-- The number of the initialisation that a section finds. -/
def Act.inits : Act → Option Nat
  | .locked _ _ session => some session.inits
  | _ => none

theorem reinitRun_started :
    reinitRun.result = some (some .started) ∧ (reinitRun.trace actsOf).filterMap Act.inits = [1, 2, 2, 2] := by
  decide +kernel

/-- The initialisations that the sections of a record find. -/
theorem ForkRecord.filterMap_inits (r : ForkRecord) (s : Session) :
    (r.trace s).filterMap Act.inits
      = [(r.checked s).inits, (r.prepared s).inits, (r.signed s).inits, (r.applied s).inits] := by
  cases hv : (r.signed s).ctx.verifier with
  | none =>
      rw [trace, approval, hv]
      rfl
  | some v =>
      rw [trace, approval, hv]
      rfl

/-- **A run may act on two configurations**: it starts the updater with the install directory of another
    initialisation than the one that the URL of the manifest came from, and the verifier is not asked. -/
theorem updatePerform_mixes_configurations :
    reinitRun.result = some (some .started) ∧ ¬ OneConfiguration (reinitRun.trace actsOf) := by
  refine ⟨reinitRun_started.1, ?_⟩
  obtain ⟨r, hvalid, htrace, _⟩ := updatePerform_forked reinitRun_started.1 (Or.inl rfl)
  have hinits := reinitRun_started.2
  rw [htrace, ForkRecord.filterMap_inits] at hinits
  rw [htrace, ForkRecord.oneConfiguration_iff hvalid.started.package]
  rintro ⟨_, _, happlied⟩
  have h := happlied.inits
  simp only [List.cons.injEq] at hinits
  omega

end LibUpdate
