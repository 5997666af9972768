import LibUpdate.Perform.Context

/-!
# `Perform.Invariant` — what the context holds over every sequence of calls (`update.c`)

Between two calls the context is cleared, or it holds what one call of `update_init` has accepted. Every exit of
`update_init` clears by hand what it has stored so far, and the helper that does it leaves the progress callback
alone; that is enough, because `update_init` starts from a context of zeros.
-/

namespace LibUpdate

/-! ## The two states of the context -/

/-- Neither `NULL` nor empty. -/
def Given (s : Option Bytes) : Prop := ∃ text, s = some text ∧ text ≠ []

/-- Absent, empty, or accepted as an absolute path. -/
def AcceptedDir (dir : Option Bytes) : Prop :=
  ∀ d, dir = some d → d = [] ∨ updateValidatePath d true = .ok

/-- A context that `update_init` has filled: it has a URL and a name, and its directories are absent or accepted. -/
structure Configured (ctx : UpdateContext) : Prop where
  initialized : ctx.initialized = true
  updateUrl : Given ctx.updateUrl
  appName : Given ctx.appName
  installDir : AcceptedDir ctx.installDir
  tempDir : AcceptedDir ctx.tempDir

/-- The invariant: a context is cleared or configured. Every call of the library keeps it, so that no call ever
    finds half of a configuration. -/
def ContextValid (ctx : UpdateContext) : Prop := ctx = .zero ∨ Configured ctx

/-- The context that holds the strings of the options, and no callback. -/
def UpdateOptions.stored (opts : UpdateOptions) : UpdateContext :=
  { UpdateContext.zero with
    initialized := true, updateUrl := opts.updateUrl, appName := opts.appName, installDir := opts.installDir,
    tempDir := opts.tempDir, channel := opts.channel, expectedSha256 := opts.expectedSha256 }

theorem holdsText_iff {s : Option Bytes} : holdsText s = true ↔ Given s := by
  cases s with
  | none => simp [holdsText, Given]
  | some s => simp [holdsText, Given]

theorem optionalDirOk_iff {dir : Option Bytes} : optionalDirOk dir = true ↔ AcceptedDir dir := by
  cases dir with
  | none => simp [optionalDirOk, holdsText, AcceptedDir]
  | some d => simp [optionalDirOk, holdsText, AcceptedDir]

/-- A cleared context is cleared, a configured one is initialised. -/
theorem ContextValid.eq_zero {ctx : UpdateContext} (h : ContextValid ctx) (hctx : ctx.initialized = false) :
    ctx = .zero := by
  rcases h with h | h
  · exact h
  · rw [h.initialized] at hctx
    cases hctx

/-! ## `update_init` -/

/-- Copying a string gives the string. -/
theorem dupIf_isNone {ok : Bool} {s : Option Bytes} (h : (dupIf ok s).isNone = false) : dupIf ok s = s := by
  cases ok with
  | true => rfl
  | false => cases h

theorem dupOptional_some {ok : Bool} {s copy : Option Bytes} (h : dupOptional ok s = some copy) : copy = s := by
  cases s with
  | none =>
      cases h
      rfl
  | some s =>
      cases ok with
      | true =>
          cases h
          rfl
      | false => cases h

/-- A call of `update_init` on a cleared context either fails and leaves it cleared, or has found the options in
    order and stores them. -/
theorem updateInit_zero (opts : UpdateOptions) (alloc : Nat → Bool) :
    updateInit opts alloc .zero = (.error, .zero)
      ∨ updateInit opts alloc .zero = (.ok, opts.stored) ∧ Configured opts.stored := by
  unfold updateInit
  rw [if_neg (by decide)]
  split
  · exact Or.inl rfl
  next hvalid =>
  dsimp only
  split
  · exact Or.inl rfl
  next hcopied =>
  split
  · exact Or.inl rfl
  next installDir hinstall =>
  split
  · exact Or.inl rfl
  next tempDir htemp =>
  split
  · exact Or.inl rfl
  next channel hchannel =>
  split
  · exact Or.inl rfl
  next expectedSha256 hsha =>
  split
  · exact Or.inl rfl
  next hinstallOk =>
  split
  · exact Or.inl rfl
  next htempOk =>
  -- all copies were made, so they are the strings of the options
  rw [Bool.not_eq_true, Bool.or_eq_false_iff] at hcopied
  have hurl := dupIf_isNone hcopied.1
  have happ := dupIf_isNone hcopied.2
  obtain rfl := dupOptional_some hinstall
  obtain rfl := dupOptional_some htemp
  obtain rfl := dupOptional_some hchannel
  obtain rfl := dupOptional_some hsha
  simp only [Bool.not_eq_true, Bool.not_eq_false', optsValidLocked, Bool.and_eq_true, holdsText_iff,
    optionalDirOk_iff] at hvalid hinstallOk htempOk
  right
  refine ⟨?_, rfl, hvalid.1, hvalid.2, hinstallOk, htempOk⟩
  rw [hurl, happ]
  rfl

/-- What a call of `update_init` makes of a context: one that fails changes nothing of an initialised context and
    leaves another one cleared, and one that succeeds stores the strings of the options. -/
structure InitEffect (opts : UpdateOptions) (ctx : UpdateContext) (r : UpdateStatus × UpdateContext) : Prop where
  kept : r.1 ≠ .ok → ctx.initialized = true → r.2 = ctx
  cleared : r.1 ≠ .ok → ctx.initialized = false → r.2 = .zero
  stored : r.1 = .ok → r.2 = opts.stored

/-- **Atomic initialisation.** -/
theorem updateInit_effect {ctx : UpdateContext} (h : ContextValid ctx) (opts : UpdateOptions) (alloc : Nat → Bool) :
    InitEffect opts ctx (updateInit opts alloc ctx) ∧ ContextValid (updateInit opts alloc ctx).2 := by
  cases hctx : ctx.initialized with
  | true =>
      rw [updateInit_initialized hctx]
      refine ⟨⟨fun _ _ => rfl, ?_, fun hok => (by cases hok)⟩, h⟩
      intro _ hfalse
      rw [hctx] at hfalse
      cases hfalse
  | false =>
      obtain rfl := h.eq_zero hctx
      rcases updateInit_zero opts alloc with hrun | ⟨hrun, hconf⟩
      · rw [hrun]
        exact ⟨⟨fun _ _ => rfl, fun _ _ => rfl, fun hok => (by cases hok)⟩, Or.inl rfl⟩
      · rw [hrun]
        exact ⟨⟨fun hne => absurd rfl hne, fun hne => absurd rfl hne, fun _ => rfl⟩, Or.inr hconf⟩

/-! ## Every sequence of calls -/

/-- A context with the same configuration is configured as well. -/
theorem Configured.same {s t : Session} (h : Configured s.ctx) (hsame : s.SameInit t) : Configured t.ctx := by
  refine ⟨hsame.initialized.trans h.initialized, ?_, ?_, ?_, ?_⟩
  · rw [hsame.updateUrl]
    exact h.updateUrl
  · rw [hsame.appName]
    exact h.appName
  · rw [hsame.installDir]
    exact h.installDir
  · rw [hsame.tempDir]
    exact h.tempDir

/-- An initialised context is a configured one. -/
theorem ContextValid.configured {ctx : UpdateContext} (h : ContextValid ctx) (hctx : ctx.initialized = true) :
    Configured ctx := by
  rcases h with h | h
  · rw [h] at hctx
    cases hctx
  · exact h

/-- Each call keeps the invariant. -/
theorem ApiCall.run_valid (call : ApiCall) {s : Session} (h : ContextValid s.ctx) : ContextValid (call.run s).ctx := by
  cases call with
  | init opts alloc =>
      have hctx : (ApiCall.run (.init opts alloc) s).ctx = (updateInit opts alloc s.ctx).2 := by
        rw [ApiCall.run]
        split
        · next hrun => rw [hrun]
        · next hrun => rw [hrun]
      rw [hctx]
      exact (updateInit_effect h opts alloc).2
  | shutdown => exact Or.inl rfl
  | setProgressCallback cb user =>
      cases hinit : s.ctx.initialized with
      | true => exact Or.inr ((h.configured hinit).same (ApiCall.run_keeps hinit (by simp)).1)
      | false =>
          show ContextValid (updateSetDownloadProgressCallback cb user s.ctx)
          rw [updateSetDownloadProgressCallback, if_neg (by simp [hinit])]
          exact h
  | setVerifier fn user =>
      cases hinit : s.ctx.initialized with
      | true => exact Or.inr ((h.configured hinit).same (ApiCall.run_keeps hinit (by simp)).1)
      | false =>
          show ContextValid (updateSetPackageSignatureVerifier fn user s.ctx)
          rw [updateSetPackageSignatureVerifier, if_neg (by simp [hinit])]
          exact h

/-- The invariant holds after every sequence of calls. -/
theorem runCalls_valid (calls : List ApiCall) {s : Session} (h : ContextValid s.ctx) :
    ContextValid (runCalls calls s).ctx := by
  induction calls generalizing s with
  | nil => exact h
  | cons call calls ih =>
      rw [runCalls_cons]
      exact ih (call.run_valid h)

/-- **The context over every sequence of calls**, from the context of zeros that the process starts with: it is
    cleared or configured, and the next `update_init` acts on it as a whole or not at all. -/
theorem runCalls_context (calls : List ApiCall) (opts : UpdateOptions) (alloc : Nat → Bool) :
    ContextValid (runCalls calls ⟨.zero, 0⟩).ctx
      ∧ InitEffect opts (runCalls calls ⟨.zero, 0⟩).ctx (updateInit opts alloc (runCalls calls ⟨.zero, 0⟩).ctx) := by
  have hvalid : ContextValid (runCalls calls ⟨.zero, 0⟩).ctx := runCalls_valid calls (Or.inl rfl)
  exact ⟨hvalid, (updateInit_effect hvalid opts alloc).1⟩

/-- Options with all strings. -/
def fullOptions : UpdateOptions :=
  ⟨some (ascii "http://h/m"), some (ascii "app"), some (ascii "/a"), some (ascii "/t"), some (ascii "beta"),
    some (ascii "00")⟩

/-- After a shutdown, a call of `update_init` that succeeds stores all that it is given. -/
theorem runCalls_context_stored :
    (updateInit fullOptions (fun _ => true) (runCalls [.init fullOptions fun _ => true, .shutdown] ⟨.zero, 0⟩).ctx).2
        = fullOptions.stored
      ∧ fullOptions.stored.initialized = true :=
  ⟨(runCalls_context [.init fullOptions fun _ => true, .shutdown] fullOptions fun _ => true).2.stored
    (by decide +kernel), rfl⟩

end LibUpdate
