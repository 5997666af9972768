import LibUpdate.JsonMini
import LibUpdate.Path

/-!
# `Updater.State` — the updater's state file (`update_state.c`)

The state file holds the phase of an unfinished update and the four paths it belongs to, as one flat
JSON object. It is written beside itself and renamed into place; it is read back through a buffer that
grows by blocks of 4096 bytes.

The read loop stores a NUL after the bytes it has read. Where that store falls outside the buffer the
C program has no defined behaviour from there on: the model says so with `overrun`.
-/

namespace LibUpdate

/-- `updater_state_t`. -/
structure UpdaterState where
  phase : Bytes
  target : Bytes
  staging : Bytes
  backup : Bytes
  package : Bytes
  deriving DecidableEq, Repr

/-- The phases that `main` writes. -/
inductive Phase where
  | extracted
  | installBackedUp
  | installed
  deriving DecidableEq, Repr

def Phase.text : Phase → Bytes
  | .extracted => ascii "extracted"
  | .installBackedUp => ascii "install_backed_up"
  | .installed => ascii "installed"

/-! ## Writing -/

/-- The text `updater_state_save_atomic` prints. -/
def stateText (phase installDir staging backup package : Bytes) : Bytes :=
  ascii "\x7b\"phase\":" ++ jsonEmitEscapedString phase
    ++ (ascii ",\"target\":" ++ jsonEmitEscapedString installDir
    ++ (ascii ",\"staging\":" ++ jsonEmitEscapedString staging
    ++ (ascii ",\"backup\":" ++ jsonEmitEscapedString backup
    ++ (ascii ",\"package\":" ++ jsonEmitEscapedString package ++ ascii "\x7d\n"))))

/-- The state file and the file it is prepared in (`<state>.part`), each with its bytes. -/
structure StateFiles where
  state : Option Bytes
  part : Option Bytes
  deriving DecidableEq, Repr

/-- How the calls of one `updater_state_save_atomic` turn out. -/
structure SaveEnv where
  opens : Bool
  closes : Bool
  moves : Bool
  removes : Bool
  deriving DecidableEq, Repr

/-- `updater_state_save_atomic`: its return value and the two files after it. -/
def updaterStateSaveAtomic (env : SaveEnv) (statePath phase installDir staging backup package : Bytes)
    (fs : StateFiles) : Int × StateFiles :=
  match snprintf (pathMax + 32) (statePath ++ ascii ".part") with
  | none => (-1, fs)
  | some _ =>
      let text := stateText phase installDir staging backup package
      let unremoved := if env.removes then none else some text
      -- the state file is replaced by the move only
      if !env.opens then (-1, fs)
      else if !env.closes then (-1, { fs with part := unremoved })
      else if !env.moves then (-1, { fs with part := unremoved })
      else (0, { state := some text, part := none })

/-! ## Reading -/

/-- `STATE_READ_MAX`. -/
def stateReadMax : Nat := 65536

inductive StateRead where
  /-- The terminating NUL was stored outside the buffer. -/
  | overrun
  /-- The file is longer than `STATE_READ_MAX` allows. -/
  | tooLong
  | text (buf : Bytes)
  deriving DecidableEq, Repr

/-- The read loop of `updater_state_load`: `buf` has been read, `rest` is still in the file, and the
    allocation has `cap` bytes. -/
def readStateBlocks (buf : Bytes) (cap : Nat) (rest : Bytes) : StateRead :=
  if buf.length + 4096 > stateReadMax then .tooLong
  else
    let cap := if buf.length + 4096 > cap then cap + 4096 else cap
    -- `buf[len] = 0` behind a full block is stored outside
    if (buf ++ rest.take 4096).length ≥ cap then .overrun
    else if _h : (rest.take 4096).length < 4096 then .text (buf ++ rest.take 4096)
    else readStateBlocks (buf ++ rest.take 4096) cap (rest.drop 4096)
termination_by rest.length
decreasing_by rw [List.length_take] at _h; rw [List.length_drop]; omega

/-- What `updater_state_load` gives its caller: the -1 return, or 0 with `out_found` 0 or 1. -/
inductive StateLoad where
  | overrun
  | error
  | missing
  | found (st : UpdaterState)
  deriving DecidableEq, Repr

/-- The five lookups of `updater_state_load`, in order. -/
def updaterStateParse (buf : Bytes) : StateLoad :=
  match jsonMiniExtractString buf (ascii "phase") 64, jsonMiniExtractString buf (ascii "target") pathMax,
      jsonMiniExtractString buf (ascii "staging") pathMax, jsonMiniExtractString buf (ascii "backup") pathMax,
      jsonMiniExtractString buf (ascii "package") pathMax with
  | some phase, some target, some staging, some backup, some package =>
      .found ⟨phase, target, staging, backup, package⟩
  | _, _, _, _, _ => .error

/-- `updater_state_load` on a file with these bytes (`none`: there is no file), with memory available. -/
def updaterStateLoad (file : Option Bytes) : StateLoad :=
  match file with
  | none => .missing
  | some bytes =>
      match readStateBlocks [] 4096 bytes with
      | .overrun => .overrun
      | .tooLong => .error
      | .text buf => updaterStateParse (cstr buf)

/-- `updater_state_validate`. -/
def updaterStateValidate (st : UpdaterState) (installDir staging backup zipPath : Bytes) : Int :=
  if st.target ≠ installDir then -1
  else if st.staging ≠ staging || st.backup ≠ backup then -1
  else if st.package ≠ zipPath then -1
  else if st.staging = installDir then -1
  else if updateValidatePath st.target true ≠ .ok || updateValidatePath st.staging true ≠ .ok
      || updateValidatePath st.backup true ≠ .ok || updateValidatePath st.package false ≠ .ok then -1
  else 0

/-! ## Resuming -/

/-- The `UPDATER_RESUME_*` points. -/
inductive Resume where
  | full
  | postExtract
  | postBackup
  | postInstall
  | rollback
  deriving DecidableEq, Repr

/-- `updater_determine_resume` for a state that was found: `inst`, `stg` and `bak` are its three
    `path_is_dir` answers. -/
def updaterDetermineResume (inst stg bak : Bool) (st : UpdaterState) : Resume :=
  if !inst && bak && !stg then .rollback
  else if !inst && bak && stg then .postBackup
  else if inst && !stg && bak then .postInstall
  else if inst && stg && !bak then
    if st.phase = Phase.extracted.text then .postExtract else .full
  else if inst && stg && bak then
    if st.phase = Phase.extracted.text then .postExtract else .full
  else .full

/-! ## What each function says -/

/-- A state that validates is the one saved for these arguments. -/
theorem updaterStateValidate_eq_zero {st : UpdaterState} {installDir staging backup zipPath : Bytes} :
    updaterStateValidate st installDir staging backup zipPath = 0
      ↔ (st.target = installDir ∧ st.staging = staging ∧ st.backup = backup ∧ st.package = zipPath)
        ∧ staging ≠ installDir ∧ updateValidatePath installDir true = .ok
        ∧ updateValidatePath staging true = .ok ∧ updateValidatePath backup true = .ok
        ∧ updateValidatePath zipPath false = .ok := by
  unfold updaterStateValidate
  constructor
  · intro h
    split at h; · exact absurd h (by decide)
    next htarget =>
    split at h; · exact absurd h (by decide)
    next hdirs =>
    split at h; · exact absurd h (by decide)
    next hpkg =>
    split at h; · exact absurd h (by decide)
    next hself =>
    split at h; · exact absurd h (by decide)
    next hval =>
    simp only [Bool.or_eq_true, decide_eq_true_eq, not_or, Decidable.not_not] at htarget hdirs hpkg hself hval
    obtain ⟨rfl⟩ := htarget
    obtain ⟨rfl⟩ := hpkg
    obtain ⟨hs, hb⟩ := hdirs
    subst hs
    subst hb
    exact ⟨⟨rfl, rfl, rfl, rfl⟩, hself, hval.1.1.1, hval.1.1.2, hval.1.2, hval.2⟩
  · rintro ⟨⟨ht, hs, hb, hp⟩, hne, h1, h2, h3, h4⟩
    subst ht hs hb hp
    simp [hne, h1, h2, h3, h4]

/-- What each resume point says about the layout. -/
theorem updaterDetermineResume_spec (inst stg bak : Bool) (st : UpdaterState) :
    match updaterDetermineResume inst stg bak st with
    | .rollback => inst = false ∧ bak = true ∧ stg = false
    | .postBackup => inst = false ∧ bak = true ∧ stg = true
    | .postInstall => inst = true ∧ stg = false ∧ bak = true
    | .postExtract => inst = true ∧ stg = true ∧ st.phase = Phase.extracted.text
    | .full => inst = false → bak = false := by
  unfold updaterDetermineResume
  cases inst <;> cases stg <;> cases bak <;> by_cases hp : st.phase = Phase.extracted.text <;> simp [hp]

/-- A file shorter than one block is read whole. -/
theorem readStateBlocks_short {bytes : Bytes} (h : bytes.length < 4096) :
    readStateBlocks [] 4096 bytes = .text bytes := by
  have htake : bytes.take 4096 = bytes := List.take_of_length_le (by omega)
  unfold readStateBlocks
  simp [stateReadMax, htake, h]

/-- A file of one block or more puts the NUL of the first block outside the first allocation. -/
theorem readStateBlocks_long {bytes : Bytes} (h : 4096 ≤ bytes.length) :
    readStateBlocks [] 4096 bytes = .overrun := by
  unfold readStateBlocks
  simp [stateReadMax, h]

/-- A successful save leaves exactly the printed text under the state file's name. -/
theorem updaterStateSaveAtomic_ok {env : SaveEnv} {statePath phase installDir staging backup package : Bytes}
    {fs fs' : StateFiles}
    (h : updaterStateSaveAtomic env statePath phase installDir staging backup package fs = (0, fs')) :
    fs' = { state := some (stateText phase installDir staging backup package), part := none } := by
  unfold updaterStateSaveAtomic at h
  split at h
  · cases h
  · simp only at h
    split at h; · cases h
    split at h; · cases h
    split at h; · cases h
    exact (Prod.mk.inj h).2.symm

end LibUpdate
