import LibUpdate.Path

/-!
# `Perform.Context` — the library's context and the calls that change it (`update.c`)

`s_ctx` is shared by all threads; every access to it stands between `ctx_lock` and `ctx_unlock`, so a call that
has one such section is one function of the context. A function pointer is a number that names the function,
and a user pointer is a number.
-/

namespace LibUpdate

/-- `update_context_t`. A `NULL` string or callback is `none`. -/
structure UpdateContext where
  initialized : Bool
  updateUrl : Option Bytes
  appName : Option Bytes
  installDir : Option Bytes
  tempDir : Option Bytes
  channel : Option Bytes
  expectedSha256 : Option Bytes
  progressCb : Option Nat
  progressUserdata : Nat
  signatureCb : Option Nat
  signatureUserdata : Nat
  deriving DecidableEq, Repr

/-- `memset(&s_ctx, 0, sizeof(s_ctx))`. -/
def UpdateContext.zero : UpdateContext := ⟨false, none, none, none, none, none, none, none, 0, none, 0⟩

/-- `update_options_t`. -/
structure UpdateOptions where
  updateUrl : Option Bytes
  appName : Option Bytes
  installDir : Option Bytes
  tempDir : Option Bytes
  channel : Option Bytes
  expectedSha256 : Option Bytes
  deriving DecidableEq, Repr

def contextFreeStrings (ctx : UpdateContext) : UpdateContext :=
  { ctx with
    updateUrl := none, appName := none, installDir := none, tempDir := none, channel := none,
    expectedSha256 := none, signatureCb := none, signatureUserdata := 0, initialized := false }

/-- Not `NULL` and not the empty string. -/
def holdsText (s : Option Bytes) : Bool := s.any (· != [])

def optsValidLocked (opts : UpdateOptions) : Bool := holdsText opts.updateUrl && holdsText opts.appName

/-- `dup_str`, where `ok` says whether `malloc` gives the memory. -/
def dupIf (ok : Bool) (s : Option Bytes) : Option Bytes := if ok then s else none

/-- Copies an optional string; `none` where there is one and it is not copied. -/
def dupOptional (ok : Bool) (s : Option Bytes) : Option (Option Bytes) :=
  match s with
  | none => some none
  | some s => if ok then some (some s) else none

/-- A directory of the options is absent, empty, or an absolute path that passes the checks. -/
def optionalDirOk (dir : Option Bytes) : Bool :=
  !holdsText dir || dir.all fun d => updateValidatePath d true == .ok

/-- `update_init`; `alloc i` says whether the copy of the `i`-th string of the options gets its memory. -/
def updateInit (opts : UpdateOptions) (alloc : Nat → Bool) (ctx : UpdateContext) : UpdateStatus × UpdateContext :=
  if ctx.initialized then (.error, ctx)
  else if !optsValidLocked opts then (.error, ctx)
  else
    -- `memset`: callbacks of an earlier initialisation are gone
    let ctx := { UpdateContext.zero with
      updateUrl := dupIf (alloc 0) opts.updateUrl, appName := dupIf (alloc 1) opts.appName }
    if ctx.updateUrl.isNone || ctx.appName.isNone then (.error, contextFreeStrings ctx)
    else
      match dupOptional (alloc 2) opts.installDir with
      | none => (.error, contextFreeStrings ctx)
      | some installDir =>
          let ctx := { ctx with installDir }
          match dupOptional (alloc 3) opts.tempDir with
          | none => (.error, contextFreeStrings ctx)
          | some tempDir =>
              let ctx := { ctx with tempDir }
              match dupOptional (alloc 4) opts.channel with
              | none => (.error, contextFreeStrings ctx)
              | some channel =>
                  let ctx := { ctx with channel }
                  match dupOptional (alloc 5) opts.expectedSha256 with
                  | none => (.error, contextFreeStrings ctx)
                  | some expectedSha256 =>
                      let ctx := { ctx with expectedSha256 }
                      -- the directories are checked last, when all strings are copied
                      if !optionalDirOk ctx.installDir then (.error, contextFreeStrings ctx)
                      else if !optionalDirOk ctx.tempDir then (.error, contextFreeStrings ctx)
                      else (.ok, { ctx with initialized := true })

/-- `update_shutdown`. -/
def updateShutdown (_ : UpdateContext) : UpdateContext := .zero

/-- `update_set_download_progress_callback`. -/
def updateSetDownloadProgressCallback (cb : Option Nat) (user : Nat) (ctx : UpdateContext) : UpdateContext :=
  if ctx.initialized then { ctx with progressCb := cb, progressUserdata := user } else ctx

/-- `update_set_package_signature_verifier`. -/
def updateSetPackageSignatureVerifier (fn : Option Nat) (user : Nat) (ctx : UpdateContext) : UpdateContext :=
  if ctx.initialized then { ctx with signatureCb := fn, signatureUserdata := user } else ctx

/-! ## Calls of other threads -/

/-- A registered signature verifier: the function with its user pointer. -/
structure Verifier where
  fn : Nat
  user : Nat
  deriving DecidableEq, Repr

def UpdateContext.verifier (ctx : UpdateContext) : Option Verifier :=
  ctx.signatureCb.map fun fn => ⟨fn, ctx.signatureUserdata⟩

/-- The calls that have one section and write the context in it. -/
inductive ApiCall where
  | init (opts : UpdateOptions) (alloc : Nat → Bool)
  | shutdown
  | setProgressCallback (cb : Option Nat) (user : Nat)
  | setVerifier (fn : Option Nat) (user : Nat)

/-- The context, and how many calls of `update_init` have succeeded: what two sections read comes from the same
    initialisation where they find the same number. -/
structure Session where
  ctx : UpdateContext
  inits : Nat
  deriving DecidableEq, Repr

def ApiCall.run (call : ApiCall) (s : Session) : Session :=
  match call with
  | .init opts alloc =>
      match updateInit opts alloc s.ctx with
      | (.ok, ctx) => ⟨ctx, s.inits + 1⟩
      | (_, ctx) => ⟨ctx, s.inits⟩
  | .shutdown => ⟨updateShutdown s.ctx, s.inits⟩
  | .setProgressCallback cb user => ⟨updateSetDownloadProgressCallback cb user s.ctx, s.inits⟩
  | .setVerifier fn user => ⟨updateSetPackageSignatureVerifier fn user s.ctx, s.inits⟩

def runCalls (calls : List ApiCall) (s : Session) : Session := calls.foldl (fun s call => call.run s) s

/-- What a call makes of the registered verifier while the library is initialised. -/
def ApiCall.setsVerifier (call : ApiCall) (v : Option Verifier) : Option Verifier :=
  match call with
  | .setVerifier fn user => fn.map fun fn => ⟨fn, user⟩
  | _ => v

/-- The verifier that is registered after the calls. -/
def verifierAfter (calls : List ApiCall) (v : Option Verifier) : Option Verifier :=
  calls.foldl (fun v call => call.setsVerifier v) v

/-! ## What calls do to a session -/

theorem updateInit_initialized {ctx : UpdateContext} (h : ctx.initialized = true) (opts : UpdateOptions)
    (alloc : Nat → Bool) : updateInit opts alloc ctx = (.error, ctx) := by
  rw [updateInit, if_pos h]

/-- A call of `update_init` succeeds and initialises the context, or fails and leaves it uninitialised. -/
theorem updateInit_uninitialized {ctx : UpdateContext} (h : ctx.initialized = false) (opts : UpdateOptions)
    (alloc : Nat → Bool) :
    (∃ ctx', updateInit opts alloc ctx = (.ok, ctx') ∧ ctx'.initialized = true)
      ∨ ∃ ctx', updateInit opts alloc ctx = (.error, ctx') ∧ ctx'.initialized = false := by
  unfold updateInit
  rw [if_neg (by simp [h])]
  split; · exact Or.inr ⟨_, rfl, h⟩
  dsimp only
  split; · exact Or.inr ⟨_, rfl, rfl⟩
  split; · exact Or.inr ⟨_, rfl, rfl⟩
  split; · exact Or.inr ⟨_, rfl, rfl⟩
  split; · exact Or.inr ⟨_, rfl, rfl⟩
  split; · exact Or.inr ⟨_, rfl, rfl⟩
  split; · exact Or.inr ⟨_, rfl, rfl⟩
  split; · exact Or.inr ⟨_, rfl, rfl⟩
  exact Or.inl ⟨_, rfl, rfl⟩

namespace Session

/-- The number of initialisations and of shutdowns that ended one. -/
def epoch (s : Session) : Nat := 2 * s.inits + if s.ctx.initialized then 0 else 1

/-- Two sessions with the same configuration: they differ in the callbacks at most. -/
structure SameInit (s t : Session) : Prop where
  inits : t.inits = s.inits
  initialized : t.ctx.initialized = s.ctx.initialized
  updateUrl : t.ctx.updateUrl = s.ctx.updateUrl
  appName : t.ctx.appName = s.ctx.appName
  installDir : t.ctx.installDir = s.ctx.installDir
  tempDir : t.ctx.tempDir = s.ctx.tempDir
  channel : t.ctx.channel = s.ctx.channel
  expectedSha256 : t.ctx.expectedSha256 = s.ctx.expectedSha256

theorem SameInit.refl (s : Session) : SameInit s s := ⟨rfl, rfl, rfl, rfl, rfl, rfl, rfl, rfl⟩

theorem SameInit.trans {s t u : Session} (h : SameInit s t) (h' : SameInit t u) : SameInit s u :=
  ⟨h'.inits.trans h.inits, h'.initialized.trans h.initialized, h'.updateUrl.trans h.updateUrl,
    h'.appName.trans h.appName, h'.installDir.trans h.installDir, h'.tempDir.trans h.tempDir,
    h'.channel.trans h.channel, h'.expectedSha256.trans h.expectedSha256⟩

end Session

open Session

/-- A call other than `update_shutdown` changes nothing of an initialised context but its callbacks. -/
theorem ApiCall.run_keeps {call : ApiCall} {s : Session} (hs : s.ctx.initialized = true)
    (hcall : call ≠ .shutdown) :
    SameInit s (call.run s) ∧ (call.run s).ctx.verifier = call.setsVerifier s.ctx.verifier := by
  cases call with
  | init opts alloc =>
      have hrun : ApiCall.run (.init opts alloc) s = s := by
        rw [ApiCall.run, updateInit_initialized hs]
      rw [hrun]
      exact ⟨.refl s, rfl⟩
  | shutdown => exact absurd rfl hcall
  | setProgressCallback cb user =>
      have hrun : ApiCall.run (.setProgressCallback cb user) s
          = ⟨{ s.ctx with progressCb := cb, progressUserdata := user }, s.inits⟩ := by
        rw [ApiCall.run, updateSetDownloadProgressCallback, if_pos hs]
      rw [hrun]
      exact ⟨⟨rfl, rfl, rfl, rfl, rfl, rfl, rfl, rfl⟩, rfl⟩
  | setVerifier fn user =>
      have hrun : ApiCall.run (.setVerifier fn user) s
          = ⟨{ s.ctx with signatureCb := fn, signatureUserdata := user }, s.inits⟩ := by
        rw [ApiCall.run, updateSetPackageSignatureVerifier, if_pos hs]
      rw [hrun]
      exact ⟨⟨rfl, rfl, rfl, rfl, rfl, rfl, rfl, rfl⟩, rfl⟩

/-- No call goes back to an earlier epoch. -/
theorem ApiCall.epoch_le_run (call : ApiCall) (s : Session) : s.epoch ≤ (call.run s).epoch := by
  cases hs : s.ctx.initialized with
  | true =>
      by_cases hcall : call = .shutdown
      · subst hcall
        simp [epoch, ApiCall.run, updateShutdown, UpdateContext.zero, hs]
      · have hkeeps := (ApiCall.run_keeps hs hcall).1
        exact Nat.le_of_eq (by rw [epoch, epoch, hkeeps.inits, hkeeps.initialized])
  | false =>
      cases call with
      | init opts alloc =>
          rcases updateInit_uninitialized hs opts alloc with ⟨ctx, hrun, hctx⟩ | ⟨ctx, hrun, hctx⟩
          · have hnew : ApiCall.run (.init opts alloc) s = ⟨ctx, s.inits + 1⟩ := by rw [ApiCall.run, hrun]
            rw [hnew, epoch, epoch, hs, hctx]
            show 2 * s.inits + 1 ≤ 2 * (s.inits + 1) + 0
            omega
          · simp [epoch, ApiCall.run, hrun, hctx, hs]
      | shutdown => simp [epoch, ApiCall.run, updateShutdown, UpdateContext.zero, hs]
      | setProgressCallback cb user =>
          simp [epoch, ApiCall.run, updateSetDownloadProgressCallback, hs]
      | setVerifier fn user =>
          simp [epoch, ApiCall.run, updateSetPackageSignatureVerifier, hs]

theorem runCalls_nil (s : Session) : runCalls [] s = s := rfl

theorem runCalls_cons (call : ApiCall) (calls : List ApiCall) (s : Session) :
    runCalls (call :: calls) s = runCalls calls (call.run s) := rfl

theorem runCalls_append (calls₁ calls₂ : List ApiCall) (s : Session) :
    runCalls (calls₁ ++ calls₂) s = runCalls calls₂ (runCalls calls₁ s) := List.foldl_append

theorem epoch_le_runCalls (calls : List ApiCall) (s : Session) : s.epoch ≤ (runCalls calls s).epoch := by
  induction calls generalizing s with
  | nil => exact Nat.le_refl _
  | cons call calls ih => exact Nat.le_trans (call.epoch_le_run s) (ih _)

/-- **Calls without a shutdown** keep the configuration, and the verifier is the last one set. -/
theorem runCalls_keeps {calls : List ApiCall} {s : Session} (hs : s.ctx.initialized = true)
    (hcalls : ApiCall.shutdown ∉ calls) :
    SameInit s (runCalls calls s) ∧ (runCalls calls s).ctx.verifier = verifierAfter calls s.ctx.verifier := by
  induction calls generalizing s with
  | nil => exact ⟨.refl s, rfl⟩
  | cons call calls ih =>
      have hcall : call ≠ .shutdown := by
        rintro rfl
        exact hcalls List.mem_cons_self
      obtain ⟨hsame, hverifier⟩ := ApiCall.run_keeps hs hcall
      have hrest := ih (hsame.initialized.trans hs) fun h => hcalls (List.mem_cons_of_mem _ h)
      refine ⟨hsame.trans hrest.1, ?_⟩
      rw [runCalls_cons, hrest.2, hverifier]
      rfl

/-- A shutdown ends the epoch of an initialised context. -/
theorem epoch_lt_runCalls {calls : List ApiCall} {s : Session} (hs : s.ctx.initialized = true)
    (hcalls : ApiCall.shutdown ∈ calls) : s.epoch < (runCalls calls s).epoch := by
  induction calls generalizing s with
  | nil => cases hcalls
  | cons call calls ih =>
      by_cases hcall : call = .shutdown
      · subst hcall
        have hlt : s.epoch < (ApiCall.shutdown.run s).epoch := by
          simp [epoch, ApiCall.run, updateShutdown, UpdateContext.zero, hs]
        exact Nat.lt_of_lt_of_le hlt (epoch_le_runCalls calls _)
      · have hsame := (ApiCall.run_keeps hs hcall).1
        have hmem : ApiCall.shutdown ∈ calls := by
          rcases List.mem_cons.mp hcalls with heq | hmem
          · exact absurd heq.symm hcall
          · exact hmem
        have hlt := ih (hsame.initialized.trans hs) hmem
        rwa [epoch, hsame.inits, hsame.initialized] at hlt

/-- **One initialisation.** Two sections that find the library initialised act on the same initialisation exactly
    where no call in between shuts it down. -/
theorem runCalls_inits_eq_iff {calls : List ApiCall} {s : Session} (hs : s.ctx.initialized = true)
    (ht : (runCalls calls s).ctx.initialized = true) :
    (runCalls calls s).inits = s.inits ↔ ApiCall.shutdown ∉ calls := by
  constructor
  · intro hinits hmem
    have hlt := epoch_lt_runCalls hs hmem
    rw [epoch, epoch, hs, ht, hinits] at hlt
    exact Nat.lt_irrefl _ hlt
  · intro hcalls
    exact (runCalls_keeps hs hcalls).1.inits

end LibUpdate
