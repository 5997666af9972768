import LibUpdate.Http.Framing
import LibUpdate.Updater.StateRoundTrip

/-!
# `Updater.Torn` — a state file that was not written to its end (`update_state.c`)

The state file is moved into place as a whole, but its bytes are not forced to the disk before. After a power
failure it may hold the front of its text only. The reader has no length and no checksum to tell: it takes the file
exactly where the last path is complete, and then all of what was saved is there.
-/

namespace LibUpdate

/-- A file is read where it is shorter than one block and its five strings are there. -/
theorem updaterStateLoad_eq_found {file : Bytes} {st : UpdaterState} :
    updaterStateLoad (some file) = .found st ↔ file.length < 4096 ∧ updaterStateParse (cstr file) = .found st := by
  by_cases hlen : file.length < 4096
  · simp only [updaterStateLoad, readStateBlocks_short hlen, hlen, true_and]
  · simp only [updaterStateLoad, readStateBlocks_long (Nat.not_lt.mp hlen), hlen, false_and, reduceCtorEq]

/-- The state that is read of the front of a text is the state of the text. -/
theorem updaterStateParse_front {front text : Bytes} {st : UpdaterState} (h : updaterStateParse front = .found st)
    (hfront : front <+: text) : updaterStateParse text = .found st := by
  rw [updaterStateParse_eq_found] at h ⊢
  obtain ⟨hphase, htarget, hstaging, hbackup, hpackage⟩ := h
  exact ⟨jsonMiniExtractString_front hphase hfront, jsonMiniExtractString_front htarget hfront,
    jsonMiniExtractString_front hstaging hfront, jsonMiniExtractString_front hbackup hfront,
    jsonMiniExtractString_front hpackage hfront⟩

/-- **A torn state file is never misread.** Of the text that is saved for accepted paths, any front may be left. It is
    read exactly where all but the brace and the line end is left, and then as the state that was saved. -/
theorem updaterStateLoad_torn_iff (p : Phase) (installDir zipPath : Bytes)
    (hinst : updateValidatePath installDir true = .ok) (hzip : updateValidatePath zipPath false = .ok)
    (hlen : (installDir ++ stateSuffix).length < pathMax) {front : Bytes}
    (hfront : front <+: stateText p.text installDir (installDir ++ stagingSuffix) (installDir ++ backupSuffix) zipPath)
    (st : UpdaterState) :
    updaterStateLoad (some front) = .found st
      ↔ st = savedState p installDir zipPath ∧ ¬ HidesKey installDir ∧ front.length < 4096
        ∧ (stateText p.text installDir (installDir ++ stagingSuffix) (installDir ++ backupSuffix) zipPath).length
            ≤ front.length + 2 := by
  obtain ⟨hiok, habs⟩ := updateValidatePath_eq_ok.mp hinst
  obtain ⟨hzok, _⟩ := updateValidatePath_eq_ok.mp hzip
  have hmembers : stateText p.text installDir (installDir ++ stagingSuffix) (installDir ++ backupSuffix) zipPath
      = ch '{' :: membersText (stateMembers (savedState p installDir zipPath)) :=
    stateText_members (savedState p installDir zipPath)
  rw [hmembers] at hfront ⊢
  obtain ⟨t, htext⟩ := hfront
  have hcstr : cstr front = front :=
    cstr_eq_self fun h => nulFree_saved hiok hzok (htext ▸ List.mem_append_left t h)
  rw [updaterStateLoad_eq_found, hcstr, ← htext, List.length_append]
  by_cases hhide : HidesKey installDir
  · -- what a front gives the whole text would give, and that is unreadable
    simp only [hhide, not_true_eq_false, false_and, and_false, iff_false, not_and]
    intro _ hread
    have hwhole := updaterStateParse_front hread ⟨t, htext⟩
    rw [updaterStateParse_hidden hhide] at hwhole
    cases hwhole
  · rw [updaterStateParse_cut_iff (habs rfl) hlen hzok.short hhide htext]
    constructor
    · rintro ⟨hshort, rfl, ht⟩
      exact ⟨rfl, hhide, hshort, by omega⟩
    · rintro ⟨rfl, _, hshort, ht⟩
      exact ⟨hshort, rfl, by omega⟩

/-- The text that is saved for ordinary paths. -/
def savedSample : Bytes :=
  stateText (ascii "extracted") (ascii "/opt/app") (ascii "/opt/app.update_staging") (ascii "/opt/app.update_backup")
    (ascii "/tmp/package.zip")

/-- Without the brace and the line end the file is read, without the quote before them it is not. -/
theorem updaterStateLoad_torn_sample :
    updaterStateLoad (some (savedSample.take 139))
        = .found (savedState .extracted (ascii "/opt/app") (ascii "/tmp/package.zip"))
      ∧ updaterStateLoad (some (savedSample.take 138))
          ≠ .found (savedState .extracted (ascii "/opt/app") (ascii "/tmp/package.zip")) := by
  have hinst : updateValidatePath (ascii "/opt/app") true = .ok := by decide +kernel
  have hzip : updateValidatePath (ascii "/tmp/package.zip") false = .ok := by decide +kernel
  have hlen : (ascii "/opt/app" ++ stateSuffix).length < pathMax := by decide +kernel
  constructor
  · exact (updaterStateLoad_torn_iff .extracted _ _ hinst hzip hlen (List.take_prefix 139 savedSample) _).mpr
      (by decide +kernel)
  · intro h
    have hread := (updaterStateLoad_torn_iff .extracted _ _ hinst hzip hlen (List.take_prefix 138 savedSample) _).mp h
    exact absurd hread (by decide +kernel)

end LibUpdate
