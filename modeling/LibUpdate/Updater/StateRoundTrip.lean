import LibUpdate.Json.Cut
import LibUpdate.Updater.State

/-!
# `Updater.StateRoundTrip` — when a saved state reads back

The writer escapes quotes and backslashes; the reader looks for `"staging"` and the other keys as
substrings of the whole text. An install directory that ends in a quote and one of these keys is
printed as `...\"staging"`, which is the key to the reader: the lookup stops there and fails. A text
of one block or more runs into the read loop's overrun. Every other accepted set of paths reads back.
-/

namespace LibUpdate

/-- The members of the state object in the order they are printed. -/
def stateMembers (st : UpdaterState) : List (Bytes × Bytes) :=
  [(ascii "phase", st.phase), (ascii "target", st.target), (ascii "staging", st.staging),
    (ascii "backup", st.backup), (ascii "package", st.package)]

theorem stateText_members (st : UpdaterState) :
    stateText st.phase st.target st.staging st.backup st.package = ch '{' :: membersText (stateMembers st) := by
  have h1 : ascii "\x7b\"phase\":" = ch '{' :: jsonEmitEscapedString (ascii "phase") ++ [ch ':'] := by decide
  have h2 : ascii ",\"target\":" = ch ',' :: jsonEmitEscapedString (ascii "target") ++ [ch ':'] := by decide
  have h3 : ascii ",\"staging\":" = ch ',' :: jsonEmitEscapedString (ascii "staging") ++ [ch ':'] := by decide
  have h4 : ascii ",\"backup\":" = ch ',' :: jsonEmitEscapedString (ascii "backup") ++ [ch ':'] := by decide
  have h5 : ascii ",\"package\":" = ch ',' :: jsonEmitEscapedString (ascii "package") ++ [ch ':'] := by decide
  have h6 : ascii "\x7d\n" = [ch '}', ch '\n'] := by decide
  simp only [stateText, stateMembers, membersText, h1, h2, h3, h4, h5, h6, List.cons_append, List.nil_append,
    List.append_assoc]

/-! ## The keys -/

theorem plain_phase : PlainKey (ascii "phase") := by
  constructor <;> decide +kernel
theorem plain_target : PlainKey (ascii "target") := by
  constructor <;> decide +kernel
theorem plain_staging : PlainKey (ascii "staging") := by
  constructor <;> decide +kernel
theorem plain_backup : PlainKey (ascii "backup") := by
  constructor <;> decide +kernel
theorem plain_package : PlainKey (ascii "package") := by
  constructor <;> decide +kernel

/-- The search for a key passes over the phase member. -/
theorem passedBy_phase {key : Bytes} (p : Phase)
    (hkey : key = ascii "target" ∨ key = ascii "staging" ∨ key = ascii "backup" ∨ key = ascii "package") :
    PassedBy key (ascii "phase", p.text) := by
  rcases hkey with rfl | rfl | rfl | rfl <;> cases p <;> constructor <;> decide

/-- A suffix without the key at its end hides what is before it. -/
theorem not_endsInKey_append {key s suffix : Bytes} (hlen : key.length < suffix.length)
    (h : ¬ EndsInKey key suffix) : ¬ EndsInKey key (s ++ suffix) := by
  intro he
  exact h (List.suffix_of_suffix_length_le he (List.suffix_append s suffix)
    (by simp only [List.length_cons]; omega))

/-! ## Paths that hide a key -/

/-- The install directories whose printed form hides a later key. -/
def HidesKey (installDir : Bytes) : Prop :=
  EndsInKey (ascii "staging") installDir ∨ EndsInKey (ascii "backup") installDir
    ∨ EndsInKey (ascii "package") installDir

instance (installDir : Bytes) : Decidable (HidesKey installDir) :=
  inferInstanceAs (Decidable (_ ∨ _ ∨ _))

/-- An absolute path is none of the keys. -/
theorem absolute_ne_key {path key : Bytes} (habs : pathIsAbsolute path = true)
    (hkey : key.head? ≠ some (ch '/')) : path ≠ key := by
  rintro rfl
  exact hkey (by simpa [pathIsAbsolute] using habs)

/-- The state that `main` saves for accepted paths. -/
def savedState (p : Phase) (installDir zipPath : Bytes) : UpdaterState :=
  ⟨p.text, installDir, installDir ++ stagingSuffix, installDir ++ backupSuffix, zipPath⟩

variable {installDir zipPath : Bytes} {p : Phase}

theorem passedBy_target {key : Bytes} (hne : ascii "target" ≠ key) (hend : ¬ EndsInKey key (ascii "target"))
    (habs : pathIsAbsolute installDir = true) (hkey : key.head? ≠ some (ch '/'))
    (h : ¬ EndsInKey key installDir) : PassedBy key (ascii "target", installDir) :=
  ⟨hne, hend, absolute_ne_key habs hkey, h⟩

theorem passedBy_suffixed {key name suffix : Bytes} (hne : name ≠ key) (hend : ¬ EndsInKey key name)
    (hlen : key.length < suffix.length) (h : ¬ EndsInKey key suffix) :
    PassedBy key (name, installDir ++ suffix) := by
  refine ⟨hne, hend, ?_, not_endsInKey_append hlen h⟩
  intro he
  have := congrArg List.length he
  simp only [List.length_append] at this
  omega

/-- A state is read where all five of its strings are. -/
theorem updaterStateParse_eq_found {buf : Bytes} {st : UpdaterState} :
    updaterStateParse buf = .found st
      ↔ jsonMiniExtractString buf (ascii "phase") 64 = some st.phase
        ∧ jsonMiniExtractString buf (ascii "target") pathMax = some st.target
        ∧ jsonMiniExtractString buf (ascii "staging") pathMax = some st.staging
        ∧ jsonMiniExtractString buf (ascii "backup") pathMax = some st.backup
        ∧ jsonMiniExtractString buf (ascii "package") pathMax = some st.package := by
  unfold updaterStateParse
  constructor
  · intro h
    split at h
    · next h1 h2 h3 h4 h5 =>
      cases h
      exact ⟨h1, h2, h3, h4, h5⟩
    · cases h
  · rintro ⟨h1, h2, h3, h4, h5⟩
    rw [h1, h2, h3, h4, h5]

/-- A failed lookup is an unreadable state. -/
theorem updaterStateParse_error {buf : Bytes}
    (h : jsonMiniExtractString buf (ascii "staging") pathMax = none
      ∨ jsonMiniExtractString buf (ascii "backup") pathMax = none
      ∨ jsonMiniExtractString buf (ascii "package") pathMax = none) :
    updaterStateParse buf = .error := by
  unfold updaterStateParse
  rcases h with h | h | h <;> rw [h] <;> split <;> first | rfl | simp_all

/-- **A text without a hidden key parses** to the state it was printed from, also where it is cut short behind the
    closing quote of the last path. A text that is cut off before is unreadable. -/
theorem updaterStateParse_cut_iff (habs : pathIsAbsolute installDir = true)
    (hinst : (installDir ++ stateSuffix).length < pathMax) (hzip : zipPath.length < pathMax)
    (hhide : ¬ HidesKey installDir) {front t : Bytes}
    (htext : front ++ t = ch '{' :: membersText (stateMembers (savedState p installDir zipPath)))
    {st : UpdaterState} :
    updaterStateParse front = .found st ↔ st = savedState p installDir zipPath ∧ t.length ≤ 2 := by
  obtain ⟨hstaging, hbackup, hpackage⟩ : ¬ EndsInKey (ascii "staging") installDir
      ∧ ¬ EndsInKey (ascii "backup") installDir ∧ ¬ EndsInKey (ascii "package") installDir := by
    simpa [HidesKey] using hhide
  have hlens : installDir.length < pathMax ∧ (installDir ++ stagingSuffix).length < pathMax
      ∧ (installDir ++ backupSuffix).length < pathMax := by
    have h1 : stateSuffix.length = 18 := by decide
    have h2 : stagingSuffix.length = 15 := by decide
    have h3 : backupSuffix.length = 14 := by decide
    simp only [List.length_append] at hinst ⊢
    omega
  -- one lookup for each key; the members before it are passed by
  have mphase {w : Bytes} := jsonMiniExtractString_cut_iff plain_phase p.text [] _ 64 (w := w)
    (by simp) (by cases p <;> decide) htext
  have mtarget {w : Bytes} := jsonMiniExtractString_cut_iff plain_target installDir [(ascii "phase", p.text)] _
    pathMax (w := w) (by simpa using passedBy_phase p (Or.inl rfl)) hlens.1 htext
  have mstaging {w : Bytes} := jsonMiniExtractString_cut_iff plain_staging (installDir ++ stagingSuffix)
    [(ascii "phase", p.text), (ascii "target", installDir)] _ pathMax (w := w)
    (by simpa using ⟨passedBy_phase p (Or.inr (Or.inl rfl)),
          passedBy_target (by decide) (by decide) habs (by decide) hstaging⟩) hlens.2.1 htext
  have mbackup {w : Bytes} := jsonMiniExtractString_cut_iff plain_backup (installDir ++ backupSuffix)
    [(ascii "phase", p.text), (ascii "target", installDir), (ascii "staging", installDir ++ stagingSuffix)] _
    pathMax (w := w)
    (by simpa using ⟨passedBy_phase p (Or.inr (Or.inr (Or.inl rfl))),
          passedBy_target (by decide) (by decide) habs (by decide) hbackup,
          passedBy_suffixed (by decide) (by decide) (by decide) (by decide)⟩) hlens.2.2 htext
  have mpackage {w : Bytes} := jsonMiniExtractString_cut_iff plain_package zipPath
    [(ascii "phase", p.text), (ascii "target", installDir), (ascii "staging", installDir ++ stagingSuffix),
      (ascii "backup", installDir ++ backupSuffix)] _ pathMax (w := w)
    (by simpa using ⟨passedBy_phase p (Or.inr (Or.inr (Or.inr rfl))),
          passedBy_target (by decide) (by decide) habs (by decide) hpackage,
          passedBy_suffixed (by decide) (by decide) (by decide) (by decide),
          passedBy_suffixed (by decide) (by decide) (by decide) (by decide)⟩) hzip htext
  rw [updaterStateParse_eq_found, mphase, mtarget, mstaging, mbackup, mpackage]
  have hlast : (membersRest []).length = 1 := by decide
  constructor
  · rintro ⟨⟨hphase, _⟩, ⟨htarget, _⟩, ⟨hstg, _⟩, ⟨hbak, _⟩, hpkg, hlen⟩
    refine ⟨?_, by omega⟩
    cases st
    simp only at hphase htarget hstg hbak hpkg
    rw [savedState, hphase, htarget, hstg, hbak, hpkg]
  · rintro ⟨rfl, hlen⟩
    have hrest : ∀ ms, t.length ≤ (membersRest ms).length + 1 := fun ms => by
      have := membersRest_pos ms
      omega
    exact ⟨⟨rfl, hrest _⟩, ⟨rfl, hrest _⟩, ⟨rfl, hrest _⟩, ⟨rfl, hrest _⟩, rfl, hrest _⟩

theorem updaterStateParse_saved (habs : pathIsAbsolute installDir = true)
    (hinst : (installDir ++ stateSuffix).length < pathMax) (hzip : zipPath.length < pathMax)
    (hhide : ¬ HidesKey installDir) :
    updaterStateParse (ch '{' :: membersText (stateMembers (savedState p installDir zipPath)))
      = .found (savedState p installDir zipPath) :=
  (updaterStateParse_cut_iff habs hinst hzip hhide (List.append_nil _)).mpr ⟨rfl, Nat.zero_le 2⟩

/-- **A text with a hidden key is unreadable.** -/
theorem updaterStateParse_hidden (hhide : HidesKey installDir) :
    updaterStateParse (ch '{' :: membersText (stateMembers (savedState p installDir zipPath))) = .error := by
  have hidden : ∀ {key : Bytes}, PlainKey key →
      (key = ascii "target" ∨ key = ascii "staging" ∨ key = ascii "backup" ∨ key = ascii "package") →
      ascii "target" ≠ key → ¬ EndsInKey key (ascii "target") → EndsInKey key installDir →
      jsonMiniExtractString (ch '{' :: membersText (stateMembers (savedState p installDir zipPath))) key pathMax
        = none := fun hk hkey hne hend h =>
    jsonMiniExtractString_hidden hk [(ascii "phase", p.text)] (by simpa using passedBy_phase p hkey)
      hne hend (Or.inr h) pathMax
  apply updaterStateParse_error
  rcases hhide with h | h | h
  · exact Or.inl (hidden plain_staging (Or.inr (Or.inl rfl)) (by decide) (by decide) h)
  · exact Or.inr (Or.inl (hidden plain_backup (Or.inr (Or.inr (Or.inl rfl))) (by decide) (by decide) h))
  · exact Or.inr (Or.inr (hidden plain_package (Or.inr (Or.inr (Or.inr rfl))) (by decide) (by decide) h))

/-! ## The file as a C string -/

theorem mem_jsonEmitEscapedString {c : UInt8} {s : Bytes} (h : c ∈ jsonEmitEscapedString s) :
    c ∈ s ∨ c = ch '"' ∨ c = ch '\\' := by
  have hchar : ∀ d, c ∈ jsonEscapeChar d → c = d ∨ c = ch '\\' := by
    intro d hd
    unfold jsonEscapeChar at hd
    split at hd
    · rcases List.mem_cons.mp hd with h | h
      · exact Or.inr h
      · exact Or.inl (List.mem_singleton.mp h)
    · exact Or.inl (List.mem_singleton.mp hd)
  simp only [jsonEmitEscapedString, jsonEscape, List.mem_cons, List.cons_append, List.mem_append,
    List.mem_flatMap, List.not_mem_nil, or_false] at h
  rcases h with h | ⟨d, hd, hc⟩ | h
  · exact Or.inr (Or.inl h)
  · rcases hchar d hc with rfl | h
    · exact Or.inl hd
    · exact Or.inr (Or.inr h)
  · exact Or.inr (Or.inl h)

theorem nulFree_emitted {s : Bytes} (h : (0 : UInt8) ∉ s) : (0 : UInt8) ∉ jsonEmitEscapedString s := by
  intro hm
  rcases mem_jsonEmitEscapedString hm with h0 | h0 | h0
  · exact h h0
  · exact absurd h0 (by decide)
  · exact absurd h0 (by decide)

theorem nulFree_members : ∀ {ms : List (Bytes × Bytes)}, (∀ m ∈ ms, (0 : UInt8) ∉ m.1 ∧ (0 : UInt8) ∉ m.2) →
    (0 : UInt8) ∉ membersText ms
  | [], _ => by simp [membersText]
  | (k, v) :: ms, h => by
      have hm := h (k, v) List.mem_cons_self
      have ih : (0 : UInt8) ∉ membersText ms :=
        nulFree_members fun m hmem => h m (List.mem_cons_of_mem _ hmem)
      have hrest : (0 : UInt8) ∉ membersRest ms := by
        cases ms with
        | nil => decide
        | cons m ms => exact ih
      have hend : (0 : UInt8) ≠ memberEnd ms := by
        rcases memberEnd_cases ms with h | h <;> rw [h] <;> decide
      have hcolon : (0 : UInt8) ≠ ch ':' := by decide
      rw [membersText_cons]
      simp only [List.mem_append, List.mem_cons, not_or]
      exact ⟨nulFree_emitted hm.1, hcolon, nulFree_emitted hm.2, hend, hrest⟩

theorem PathOk.nulFree {path : Bytes} (h : PathOk path) : (0 : UInt8) ∉ path := by
  intro hm
  exact absurd (h.chars 0 hm) (by decide)

/-! ## The round trip -/

theorem found_iff {long hidden : Prop} [Decidable long] [Decidable hidden] {st : UpdaterState} :
    (if long then StateLoad.overrun else if hidden then .error else .found st) = .found st
      ↔ ¬ long ∧ ¬ hidden := by
  by_cases h1 : long <;> by_cases h2 : hidden <;> simp [h1, h2]

/-- The text saved for accepted paths is a C string. -/
theorem nulFree_saved (hinst : PathOk installDir) (hzip : PathOk zipPath) :
    (0 : UInt8) ∉ ch '{' :: membersText (stateMembers (savedState p installDir zipPath)) := by
  have hs : ∀ suffix : Bytes, (0 : UInt8) ∉ suffix → (0 : UInt8) ∉ installDir ++ suffix := fun suffix h hm =>
    (List.mem_append.mp hm).elim hinst.nulFree h
  have hp : (0 : UInt8) ∉ p.text := by cases p <;> decide
  rw [List.mem_cons, not_or]
  refine ⟨by decide, nulFree_members ?_⟩
  simp only [stateMembers, savedState, List.forall_mem_cons, List.not_mem_nil, false_imp_iff, implies_true,
    and_true]
  exact ⟨⟨by decide, hp⟩, ⟨by decide, hinst.nulFree⟩, ⟨by decide, hs _ (by decide)⟩,
    ⟨by decide, hs _ (by decide)⟩, ⟨by decide, hzip.nulFree⟩⟩

/-- What `updater_state_load` gives on the text saved for accepted paths. -/
theorem updaterStateLoad_saved (hinst : updateValidatePath installDir true = .ok)
    (hzip : updateValidatePath zipPath false = .ok) (hlen : (installDir ++ stateSuffix).length < pathMax) :
    updaterStateLoad (some (ch '{' :: membersText (stateMembers (savedState p installDir zipPath))))
      = if 4096 ≤ (ch '{' :: membersText (stateMembers (savedState p installDir zipPath))).length then .overrun
        else if HidesKey installDir then .error
        else .found (savedState p installDir zipPath) := by
  obtain ⟨hiok, habs⟩ := updateValidatePath_eq_ok.mp hinst
  obtain ⟨hzok, _⟩ := updateValidatePath_eq_ok.mp hzip
  simp only [updaterStateLoad]
  by_cases hlong : 4096 ≤ (ch '{' :: membersText (stateMembers (savedState p installDir zipPath))).length
  -- a file of a whole read block or more runs the load over its buffer
  · rw [if_pos hlong, readStateBlocks_long hlong]
  · rw [if_neg hlong, readStateBlocks_short (by omega)]
    change updaterStateParse (cstr _) = _
    rw [cstr_eq_self (nulFree_saved hiok hzok)]
    split
    · next h => exact updaterStateParse_hidden h
    · next h => exact updaterStateParse_saved (habs rfl) hlen hzok.short h

/-- The paths for which the state saved in phase `p` reads back. -/
def ReadsBack (p : Phase) (installDir zipPath : Bytes) : Prop :=
  (stateText p.text installDir (installDir ++ stagingSuffix) (installDir ++ backupSuffix) zipPath).length < 4096
    ∧ ¬ HidesKey installDir

instance (p : Phase) (installDir zipPath : Bytes) : Decidable (ReadsBack p installDir zipPath) :=
  inferInstanceAs (Decidable (_ ∧ _))

/-- The saved state passes `updater_state_validate` for the same arguments. -/
theorem updaterStateValidate_saved {stagingDir backupDir statePath : Bytes}
    (h : InstallPathsOk zipPath installDir stagingDir backupDir statePath) :
    updaterStateValidate (savedState p installDir zipPath) installDir stagingDir backupDir zipPath = 0 := by
  rw [updaterStateValidate_eq_zero]
  refine ⟨⟨rfl, h.staging_eq.symm, h.backup_eq.symm, rfl⟩, ?_, h.install, h.staging, h.backup, h.zip⟩
  rw [h.staging_eq]
  intro he
  have := congrArg List.length he
  have hsuffix : stagingSuffix.length = 15 := by decide
  simp only [List.length_append] at this
  omega

/-- **State file round trip.** For accepted paths, loading what a successful save left gives back the
    five strings, and they validate, exactly when the printed text is shorter than one read block and
    the install directory does not end in a quote and a later key. -/
theorem updaterState_roundTrip (env : SaveEnv) (fs fs' : StateFiles) (p : Phase)
    (zipPath installDir stagingDir backupDir statePath : Bytes)
    (hok : updateValidateInstallPaths zipPath installDir stagingDir backupDir statePath = .ok)
    (hsave : updaterStateSaveAtomic env statePath p.text installDir stagingDir backupDir zipPath fs = (0, fs')) :
    (updaterStateLoad fs'.state = .found ⟨p.text, installDir, stagingDir, backupDir, zipPath⟩
      ∧ updaterStateValidate ⟨p.text, installDir, stagingDir, backupDir, zipPath⟩ installDir stagingDir
          backupDir zipPath = 0)
      ↔ (stateText p.text installDir stagingDir backupDir zipPath).length < 4096
          ∧ ¬ (EndsInKey (ascii "staging") installDir ∨ EndsInKey (ascii "backup") installDir
            ∨ EndsInKey (ascii "package") installDir) := by
  have hpaths := updateValidateInstallPaths_ok hok
  have hval := updaterStateValidate_saved (p := p) hpaths
  obtain rfl := hpaths.staging_eq
  obtain rfl := hpaths.backup_eq
  obtain rfl := hpaths.state_eq
  rw [updaterStateSaveAtomic_ok hsave]
  have htext : stateText p.text installDir (installDir ++ stagingSuffix) (installDir ++ backupSuffix) zipPath
      = ch '{' :: membersText (stateMembers (savedState p installDir zipPath)) :=
    stateText_members (savedState p installDir zipPath)
  have hload := updaterStateLoad_saved (p := p) hpaths.install hpaths.zip
    (updateValidatePath_eq_ok.mp hpaths.state).1.short
  change (_ = StateLoad.found (savedState p installDir zipPath)
    ∧ updaterStateValidate (savedState p installDir zipPath) _ _ _ _ = 0) ↔ _ ∧ ¬ HidesKey installDir
  rw [and_iff_left hval, htext, hload, found_iff, Nat.not_le]

/-- A run of the round trip on ordinary paths. -/
theorem updaterState_roundTrip_opt :
    updaterStateLoad (some (stateText (ascii "extracted") (ascii "/opt/app") (ascii "/opt/app.update_staging")
        (ascii "/opt/app.update_backup") (ascii "/tmp/package.zip")))
      = .found ⟨ascii "extracted", ascii "/opt/app", ascii "/opt/app.update_staging",
          ascii "/opt/app.update_backup", ascii "/tmp/package.zip"⟩ :=
  ((updaterState_roundTrip ⟨true, true, true, true⟩ ⟨none, none⟩ _ .extracted (ascii "/tmp/package.zip")
      (ascii "/opt/app") (ascii "/opt/app.update_staging") (ascii "/opt/app.update_backup")
      (ascii "/opt/app.update_state.json") (by decide +kernel) rfl).mpr (by decide +kernel)).1

/-- An install directory that ends in `"staging` is saved but not read back. -/
theorem updaterState_hidden_staging :
    updateValidateInstallPaths (ascii "/tmp/package.zip") (ascii "/opt/\"staging")
        (ascii "/opt/\"staging.update_staging") (ascii "/opt/\"staging.update_backup")
        (ascii "/opt/\"staging.update_state.json") = .ok
      ∧ ∃ fs', updaterStateSaveAtomic ⟨true, true, true, true⟩ (ascii "/opt/\"staging.update_state.json")
          (ascii "extracted") (ascii "/opt/\"staging") (ascii "/opt/\"staging.update_staging")
          (ascii "/opt/\"staging.update_backup") (ascii "/tmp/package.zip") ⟨none, none⟩ = (0, fs')
        ∧ updaterStateLoad fs'.state = .error := by
  refine ⟨by decide +kernel, _, rfl, ?_⟩
  have hzip : updateValidatePath (ascii "/tmp/package.zip") false = .ok := by decide +kernel
  have h := updaterStateLoad_saved (p := .extracted) (by decide +kernel : updateValidatePath
    (ascii "/opt/\"staging") true = .ok) hzip (by decide +kernel)
  rw [← stateText_members, if_neg (by decide +kernel), if_pos (by decide +kernel)] at h
  exact h

end LibUpdate
