import LibUpdate.Foundation.Segments
import LibUpdate.Path

/-!
# `Path.Absolute` — the absolute form of a path (`update_path.c`, POSIX build)

`update_path_make_absolute` puts the current directory in front of a relative path. A path is told by its
components, the segments between separators that are not empty. What the function makes is a path that the
check of absolute paths accepts, with the components of the current directory and of the path in a row, and
it is a fixed point of the function.
-/

namespace LibUpdate

/-- The components of a path; repeated separators and those at its ends make none. -/
def components (path : Bytes) : List Bytes := (path.splitOnP isAnySep).filter fun seg => seg ≠ []

/-- What is asked for: the path behind the current directory, if it is not absolute already. -/
def absoluteForm (cwd path : Bytes) : Bytes := if pathIsAbsolute path then path else cwd ++ ascii "/" ++ path

/-! ## Components -/

theorem mem_components {path seg : Bytes} : seg ∈ components path ↔ seg ∈ path.splitOnP isAnySep ∧ seg ≠ [] := by
  simp [components]

theorem join_eq (cwd path : Bytes) : cwd ++ ascii "/" ++ path = cwd ++ ch '/' :: path := by
  have hslash : ascii "/" = [ch '/'] := by decide
  rw [hslash, List.append_assoc, List.singleton_append]

theorem splitOnP_join (cwd path : Bytes) :
    (cwd ++ ch '/' :: path).splitOnP isAnySep = cwd.splitOnP isAnySep ++ path.splitOnP isAnySep :=
  List.splitOnP_append_cons cwd path (by decide)

theorem components_join (cwd path : Bytes) :
    components (cwd ++ ch '/' :: path) = components cwd ++ components path := by
  rw [components, splitOnP_join, List.filter_append]
  rfl

/-- The dot check is about the components, since an empty segment is none of the two. -/
theorem pathRejectsDotSegments_iff {path : Bytes} :
    pathRejectsDotSegments path = true ↔ ∃ seg ∈ components path, seg = dot ∨ seg = dotdot := by
  have hne : ∀ seg : Bytes, seg = dot ∨ seg = dotdot → seg ≠ [] := by
    rintro seg (rfl | rfl)
    · decide
    · decide
  rw [← Bool.not_eq_false, pathRejectsDotSegments_eq_false]
  constructor
  · intro h
    obtain ⟨seg, hbad⟩ := Classical.not_forall.mp h
    obtain ⟨hseg, hbad⟩ := Classical.not_imp.mp hbad
    have hdots : seg = dot ∨ seg = dotdot := by
      by_cases hdot : seg = dot
      · exact Or.inl hdot
      · exact Or.inr (Decidable.not_not.mp fun hdotdot => hbad ⟨hdot, hdotdot⟩)
    exact ⟨seg, mem_components.mpr ⟨hseg, hne seg hdots⟩, hdots⟩
  · rintro ⟨seg, hseg, hdots⟩ h
    obtain ⟨hdot, hdotdot⟩ := h seg (mem_components.mp hseg).1
    exact hdots.elim hdot hdotdot

theorem pathHasBadChars_iff {path : Bytes} : pathHasBadChars path = true ↔ ∃ c ∈ path, c < 32 := by
  simp [pathHasBadChars]

/-! ## The absolute form -/

theorem updatePathMakeAbsolute_eq_some {cwd path out : Bytes} {outCap : Nat} :
    updatePathMakeAbsolute (some cwd) path outCap = some out
      ↔ (path ≠ [] ∧ pathHasBadChars path = false ∧ pathRejectsDotSegments path = false)
        ∧ (absoluteForm cwd path).length < outCap ∧ out = absoluteForm cwd path := by
  have hform : (if pathIsAbsolute path then snprintf outCap path
      else (some cwd).bind fun cwd => snprintf outCap (cwd ++ ascii "/" ++ path))
        = snprintf outCap (absoluteForm cwd path) := by
    rw [absoluteForm]
    split
    · rfl
    · rfl
  unfold updatePathMakeAbsolute
  rw [hform]
  constructor
  · intro h
    split at h; · cases h
    next hargs =>
    split at h; · cases h
    next hchars =>
    simp only [Bool.or_eq_true, decide_eq_true_eq, not_or, Bool.not_eq_true] at hargs hchars
    exact ⟨⟨hargs.1, hchars.1, hchars.2⟩, snprintf_eq_some.mp h⟩
  · rintro ⟨⟨hne, hbad, hdots⟩, hout⟩
    rw [if_neg (by simp [hne]; omega), if_neg (by simp [hbad, hdots])]
    exact snprintf_eq_some.mpr hout

/-- The absolute form is a path that is accepted, if its two parts are in order and it is not too long. -/
theorem absoluteForm_ok {cwd path : Bytes} (hcwd : updateValidatePath cwd true = .ok) (hne : path ≠ [])
    (hbad : pathHasBadChars path = false) (hdots : pathRejectsDotSegments path = false)
    (hshort : (absoluteForm cwd path).length < pathMax) :
    updateValidatePath (absoluteForm cwd path) true = .ok := by
  rw [updateValidatePath_eq_ok]
  obtain ⟨hok, habs⟩ := updateValidatePath_eq_ok.mp hcwd
  have hchars := pathHasBadChars_eq_false.mp hbad
  have hsegs := pathRejectsDotSegments_eq_false.mp hdots
  -- only a relative path gets new bytes, of the current directory and one separator
  unfold absoluteForm at hshort ⊢
  split
  · next h =>
    rw [if_pos h] at hshort
    exact ⟨⟨hne, hshort, hchars, hsegs⟩, fun _ => h⟩
  · next h =>
    rw [if_neg h] at hshort
    rw [join_eq] at hshort ⊢
    refine ⟨⟨by simp, hshort, ?_, ?_⟩, fun _ => ?_⟩
    · intro c hc
      rcases List.mem_append.mp hc with hc | hc
      · exact hok.chars c hc
      rcases List.mem_cons.mp hc with rfl | hc
      · decide
      · exact hchars c hc
    · intro seg hseg
      rw [splitOnP_join] at hseg
      exact (List.mem_append.mp hseg).elim (hok.segments seg) (hsegs seg)
    · -- the current directory begins with the separator
      obtain ⟨c, rest, rfl⟩ := List.exists_cons_of_ne_nil hok.nonempty
      exact habs rfl

/-- What `update_path_make_absolute` gives for a path. -/
structure MadeAbsolute (cwd path : Bytes) (outCap : Nat) (out : Bytes) : Prop where
  accepted : updateValidatePath out true = .ok
  plain : ∀ seg ∈ components out, seg ≠ dot ∧ seg ≠ dotdot
  components_eq : components out
    = if pathIsAbsolute path then components path else components cwd ++ components path
  whole : out = absoluteForm cwd path
  again : ∀ cwd' : Option Bytes, updatePathMakeAbsolute cwd' out outCap = some out

theorem components_absoluteForm (cwd path : Bytes) :
    components (absoluteForm cwd path)
      = if pathIsAbsolute path then components path else components cwd ++ components path := by
  unfold absoluteForm
  split
  · rfl
  · rw [join_eq, components_join]

/-- An accepted absolute path that fits is its own absolute form, in every directory. -/
theorem updatePathMakeAbsolute_self {out : Bytes} {outCap : Nat} (h : updateValidatePath out true = .ok)
    (hfits : out.length < outCap) (cwd : Option Bytes) : updatePathMakeAbsolute cwd out outCap = some out := by
  obtain ⟨hok, habs⟩ := updateValidatePath_eq_ok.mp h
  have hbad := pathHasBadChars_eq_false.mpr hok.chars
  have hdots := pathRejectsDotSegments_eq_false.mpr hok.segments
  have hargs : ¬ (out = [] || outCap == 0) = true := by
    simp [hok.nonempty]
    omega
  rw [updatePathMakeAbsolute, if_neg hargs, if_neg (by simp [hbad, hdots]), if_pos (habs rfl)]
  exact snprintf_eq_some.mpr ⟨hfits, rfl⟩

/-- **Making a path absolute** is closed and idempotent: what it gives is an accepted absolute path with the
    components of both parts, and is given back. It fails exactly for a path that is empty or has a control
    character or a dot component, and where the result does not fit. -/
theorem updatePathMakeAbsolute_closed (cwd path : Bytes) (hcwd : updateValidatePath cwd true = .ok) {outCap : Nat}
    (hcap : outCap ≤ pathMax) :
    (∀ out, updatePathMakeAbsolute (some cwd) path outCap = some out → MadeAbsolute cwd path outCap out)
      ∧ (updatePathMakeAbsolute (some cwd) path outCap = none
        ↔ path = [] ∨ (∃ c ∈ path, c < 32) ∨ (∃ seg ∈ components path, seg = dot ∨ seg = dotdot)
          ∨ outCap ≤ (absoluteForm cwd path).length) := by
  constructor
  · intro out h
    obtain ⟨⟨hne, hbad, hdots⟩, hfits, rfl⟩ := updatePathMakeAbsolute_eq_some.mp h
    have hok := absoluteForm_ok hcwd hne hbad hdots (Nat.lt_of_lt_of_le hfits hcap)
    refine ⟨hok, ?_, components_absoluteForm cwd path, rfl, updatePathMakeAbsolute_self hok hfits⟩
    intro seg hseg
    exact (updateValidatePath_eq_ok.mp hok).1.segments seg (mem_components.mp hseg).1
  · rw [← pathHasBadChars_iff, ← pathRejectsDotSegments_iff, Option.eq_none_iff_forall_ne_some]
    constructor
    · intro h
      by_cases hargs : path ≠ [] ∧ pathHasBadChars path = false ∧ pathRejectsDotSegments path = false
      · right; right; right
        refine Nat.le_of_not_lt fun hfits => ?_
        exact h _ (updatePathMakeAbsolute_eq_some.mpr ⟨hargs, hfits, rfl⟩)
      · rw [← Bool.not_eq_false, ← Bool.not_eq_false]
        by_cases hne : path = []
        · exact Or.inl hne
        by_cases hbad : pathHasBadChars path = false
        · exact Or.inr (Or.inr (Or.inl fun hdots => hargs ⟨hne, hbad, hdots⟩))
        · exact Or.inr (Or.inl hbad)
    · intro h out hout
      obtain ⟨⟨hne, hbad, hdots⟩, hfits, _⟩ := updatePathMakeAbsolute_eq_some.mp hout
      rcases h with h | h | h | h
      · exact hne h
      · rw [hbad] at h
        cases h
      · rw [hdots] at h
        cases h
      · omega

theorem updatePathMakeAbsolute_closed_sample :
    updateValidatePath (ascii "/home/u") true = .ok ∧ 64 ≤ pathMax
      ∧ updatePathMakeAbsolute (some (ascii "/home/u")) (ascii "a//b") 64 = some (ascii "/home/u/a//b")
      ∧ MadeAbsolute (ascii "/home/u") (ascii "a//b") 64 (ascii "/home/u/a//b") := by
  have hcwd : updateValidatePath (ascii "/home/u") true = .ok := by decide +kernel
  have hmade : updatePathMakeAbsolute (some (ascii "/home/u")) (ascii "a//b") 64 = some (ascii "/home/u/a//b") := by
    decide +kernel
  exact ⟨hcwd, by decide, hmade, (updatePathMakeAbsolute_closed _ _ hcwd (by decide)).1 _ hmade⟩

end LibUpdate
