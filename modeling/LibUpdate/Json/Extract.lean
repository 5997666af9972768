import LibUpdate.Json.Decode

/-!
# `Json.Extract` — the three readers of a string member (`json_mini.c`)

`jsonStringValue` is the decoded string that the lookup leads to, whatever its length. Each reader gives that
string or fails: none of them cuts it off.
-/

namespace LibUpdate

/-- The decoded string that the lookup of a key leads to. -/
def jsonStringValue (json key : Bytes) : Option Bytes :=
  (findStringValueStart json key).bind fun p => (parseJsonStringValue none none 0 p).map Prod.fst

/-- A destination and a limit refuse a string or leave it as it is. -/
theorem parseJsonStringValue_limits {outcap maxDecoded : Option Nat} {p d e : Bytes} :
    parseJsonStringValue outcap maxDecoded 0 p = some (d, e)
      ↔ parseJsonStringValue none none 0 p = some (d, e) ∧ DecodedFits outcap maxDecoded d.length := by
  have hnone : DecodedFits none none d.length := ⟨by simp, by simp⟩
  rw [parseJsonStringValue_iff, parseJsonStringValue_iff]
  constructor
  · rintro ⟨s, rest, hs, hp, hd, he, hfits⟩
    exact ⟨⟨s, rest, hs, hp, hd, he, hnone⟩, hfits⟩
  · rintro ⟨⟨s, rest, hs, hp, hd, he, _⟩, hfits⟩
    exact ⟨s, rest, hs, hp, hd, he, hfits⟩

variable {json key v : Bytes} {outcap : Nat}

theorem jsonStringValue_eq_some :
    jsonStringValue json key = some v
      ↔ ∃ p e, findStringValueStart json key = some p ∧ parseJsonStringValue none none 0 p = some (v, e) := by
  simp [jsonStringValue, Option.bind_eq_some_iff]

theorem decodedFits_some : DecodedFits (some outcap) none v.length ↔ v.length < outcap := by
  simp [DecodedFits]

theorem jsonMiniExtractString_eq_some :
    jsonMiniExtractString json key outcap = some v ↔ jsonStringValue json key = some v ∧ v.length < outcap := by
  rw [jsonStringValue_eq_some, jsonMiniExtractString]
  by_cases hcap : outcap = 0
  · subst hcap
    simp
  rw [if_neg (by simpa using hcap)]
  cases hfind : findStringValueStart json key with
  | none => simp
  | some p =>
      rw [Option.map_eq_some_iff]
      constructor
      · rintro ⟨⟨d, e⟩, hparse, rfl⟩
        obtain ⟨hfull, hfits⟩ := parseJsonStringValue_limits.mp hparse
        exact ⟨⟨p, e, rfl, hfull⟩, decodedFits_some.mp hfits⟩
      · rintro ⟨⟨_, e, hp, hfull⟩, hlen⟩
        cases hp
        exact ⟨(v, e), parseJsonStringValue_limits.mpr ⟨hfull, decodedFits_some.mpr hlen⟩, rfl⟩

theorem jsonMiniExtractStringOpt_eq_none_iff :
    jsonMiniExtractStringOpt json key outcap = some none ↔ findStringValueStart json key = none := by
  rw [jsonMiniExtractStringOpt]
  cases findStringValueStart json key with
  | none => simp
  | some p => by_cases hcap : outcap = 0 <;> simp [hcap]

theorem jsonMiniExtractStringOpt_eq_some :
    jsonMiniExtractStringOpt json key outcap = some (some v) ↔ jsonMiniExtractString json key outcap = some v := by
  rw [jsonMiniExtractStringOpt, jsonMiniExtractString]
  by_cases hcap : outcap = 0
  · cases findStringValueStart json key <;> simp [hcap]
  · cases findStringValueStart json key <;> simp [hcap]

section Alloc

variable {alloc : Nat → Bool} {maxValueLen : Nat}

theorem jsonMiniExtractStringAlloc_eq_none_iff :
    jsonMiniExtractStringAlloc alloc json key maxValueLen = some none ↔ findStringValueStart json key = none := by
  rw [jsonMiniExtractStringAlloc]
  cases findStringValueStart json key with
  | none => simp
  | some p =>
      cases hmeasure : parseJsonStringValue none (some maxValueLen) 0 p with
      | none => simp [hmeasure]
      | some x => by_cases halloc : alloc (x.1.length + 1) = true <;> simp [hmeasure, halloc]

/-- The second pass does not fail: the buffer has the size that the first one found. -/
theorem jsonMiniExtractStringAlloc_eq_some :
    jsonMiniExtractStringAlloc alloc json key maxValueLen = some (some v)
      ↔ jsonStringValue json key = some v ∧ v.length ≤ maxValueLen ∧ alloc (v.length + 1) = true := by
  rw [jsonStringValue_eq_some, jsonMiniExtractStringAlloc]
  cases hfind : findStringValueStart json key with
  | none => simp
  | some p =>
      dsimp only
      cases hmeasure : parseJsonStringValue none (some maxValueLen) 0 p with
      | none =>
          have hno : ¬ ∃ e, parseJsonStringValue none none 0 p = some (v, e) ∧ v.length ≤ maxValueLen := by
            rintro ⟨e, hfull, hlen⟩
            rw [parseJsonStringValue_limits.mpr ⟨hfull, by simpa [DecodedFits] using hlen⟩] at hmeasure
            cases hmeasure
          constructor
          · intro h
            cases h
          · rintro ⟨⟨_, e, hp, hfull⟩, hlen, _⟩
            cases hp
            exact absurd ⟨e, hfull, hlen⟩ hno
      | some x =>
          obtain ⟨d, e⟩ := x
          obtain ⟨hfull, hfits⟩ := parseJsonStringValue_limits.mp hmeasure
          have hlen : d.length ≤ maxValueLen := hfits.2 _ rfl
          have hsecond : parseJsonStringValue (some (d.length + 1)) (some maxValueLen) 0 p = some (d, e) :=
            parseJsonStringValue_limits.mpr ⟨hfull, by simpa [DecodedFits] using hlen⟩
          dsimp only
          rw [hsecond]
          constructor
          · intro h
            split at h
            · next halloc =>
              cases h
              exact ⟨⟨p, e, rfl, hfull⟩, hlen, halloc⟩
            · cases h
          · rintro ⟨⟨_, e', hp, hfull'⟩, _, halloc⟩
            cases hp
            rw [hfull'] at hfull
            cases hfull
            rw [if_pos halloc]
            rfl

end Alloc

/-! ## No NUL is made up -/

theorem jsonUnescape_ne_zero {c : UInt8} (hc : c ≠ 0) : jsonUnescape c ≠ 0 := by
  unfold jsonUnescape
  split; · decide
  split; · decide
  split; · decide
  exact hc

theorem nul_not_mem_jsonDecoded {s : Bytes} (hs : (0 : UInt8) ∉ s) : (0 : UInt8) ∉ jsonDecoded s := by
  fun_induction jsonDecoded s with
  | case1 => exact hs
  | case2 c => exact hs
  | case3 e s ih =>
      simp only [List.mem_cons, not_or] at hs ⊢
      exact ⟨(jsonUnescape_ne_zero (Ne.symm hs.2.1)).symm, ih hs.2.2⟩
  | case4 c e s hc ih =>
      rw [List.mem_cons, not_or] at hs ⊢
      exact ⟨hs.1, ih hs.2⟩

theorem strstr_suffix {needle s e : Bytes} (h : strstr needle s = some e) : e <:+ s := by
  obtain ⟨pre, rfl, _⟩ := strstr_eq_some h
  exact List.suffix_append pre e

theorem findStringValueStart_suffix {p : Bytes} (h : findStringValueStart json key = some p) : p <:+ json := by
  unfold findStringValueStart at h
  split at h; · cases h
  split at h; · cases h
  split at h; · cases h
  next e he =>
  split at h; · cases h
  next c p₁ hp₁ =>
  split at h; · cases h
  split at h; · cases h
  next c' p₂ hp₂ =>
  split at h; · cases h
  cases h
  -- the cursor only moves forward
  have hsecond : c' :: p <:+ p₁ := by
    rw [← hp₂]
    exact List.dropWhile_suffix _
  have hfirst : c :: p₁ <:+ e := by
    rw [← hp₁]
    exact (List.dropWhile_suffix _).trans (List.drop_suffix _ _)
  exact (List.suffix_cons c' p).trans
    (hsecond.trans ((List.suffix_cons c p₁).trans (hfirst.trans (strstr_suffix he))))

/-- The value in a text without NUL has none. -/
theorem nul_not_mem_jsonStringValue (hjson : (0 : UInt8) ∉ json) (h : jsonStringValue json key = some v) :
    (0 : UInt8) ∉ v := by
  obtain ⟨p, e, hp, hparse⟩ := jsonStringValue_eq_some.mp h
  obtain ⟨s, rest, _, rfl, rfl, _⟩ := parseJsonStringValue_iff.mp hparse
  refine nul_not_mem_jsonDecoded fun hs => hjson ?_
  exact (findStringValueStart_suffix hp).subset (List.mem_append_left _ hs)

end LibUpdate
