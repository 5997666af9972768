import LibUpdate.Json.Extract

/-!
# `Json.Agree` — the three readers agree (`json_mini.c`)

One decoder runs in three modes: measuring, writing into a buffer of exactly the measured size, and writing into a
buffer of a given size. What a pass stores is told here store by store (`parseJsonStringStores`), also for a pass
that fails on the way.
-/

namespace LibUpdate

/-! ## What a pass stores -/

/-- The stores into `out` of `parse_json_string_value`, in order, from decoded byte number `i` on. A backslash at the
    end of the text is stored as it is, before the pass fails. -/
def parseJsonStringStores (outcap : Nat) (maxDecoded : Option Nat) : Nat → Bytes → List (Nat × UInt8)
  | _, [] => []
  | i, c :: cs =>
      if c == ch '"' then if i ≥ outcap then [] else [(i, 0)]
      else if maxDecoded.any (fun m => decide (i ≥ m)) then []
      else if c == ch '\\' then
        match cs with
        | [] => if jsonRoom (some outcap) i then [(i, c)] else []
        | e :: rest =>
            if jsonRoom (some outcap) i then
              (i, jsonUnescape e) :: parseJsonStringStores outcap maxDecoded (i + 1) rest
            else []
      else if jsonRoom (some outcap) i then (i, c) :: parseJsonStringStores outcap maxDecoded (i + 1) cs
      else []

/-- **No store is out of bounds**, whatever the text and however the pass ends. -/
theorem parseJsonStringStores_lt {outcap : Nat} {maxDecoded : Option Nat} (i : Nat) (p : Bytes) :
    ∀ x ∈ parseJsonStringStores outcap maxDecoded i p, x.1 < outcap := by
  have hroom : ∀ {i : Nat}, jsonRoom (some outcap) i = true → i < outcap := by
    intro i h
    have := jsonRoom_iff.mp h outcap rfl
    omega
  fun_induction parseJsonStringStores outcap maxDecoded i p with
  | case1 => simp
  | case2 => simp
  | case3 i c cs hquote hcap => simpa using hcap
  | case4 => simp
  | case5 i c hquote hmax hback h => simpa using hroom h
  | case6 => simp
  | case7 i c hquote hmax hback e rest h ih =>
      rw [List.forall_mem_cons]
      exact ⟨hroom h, ih⟩
  | case8 => simp
  | case9 i c cs hquote hmax hback h ih =>
      rw [List.forall_mem_cons]
      exact ⟨hroom h, ih⟩
  | case10 => simp

/-- Bytes stored one behind the other. -/
def storesFrom : Nat → Bytes → List (Nat × UInt8)
  | _, [] => []
  | i, b :: bs => (i, b) :: storesFrom (i + 1) bs

/-- A pass that succeeds stores the decoded bytes, each in its place, and a NUL behind them. -/
theorem parseJsonStringStores_eq {outcap : Nat} {maxDecoded : Option Nat} {i : Nat} {p d e : Bytes}
    (h : parseJsonStringValue (some outcap) maxDecoded i p = some (d, e)) :
    parseJsonStringStores outcap maxDecoded i p = storesFrom i (d ++ [0]) := by
  fun_induction parseJsonStringValue (some outcap) maxDecoded i p generalizing d with
  | case1 => cases h
  | case2 => cases h
  | case3 i c cs hquote hcap =>
      cases h
      rw [parseJsonStringStores.eq_def]
      simp only [hquote, if_true]
      rw [if_neg (by simpa using hcap)]
      rfl
  | case4 => cases h
  | case5 => cases h
  | case6 i c hquote hmax hback e rest hroom ih =>
      obtain ⟨⟨d', e'⟩, hrec, heq⟩ := Option.map_eq_some_iff.mp h
      cases heq
      rw [parseJsonStringStores]
      simp only [hquote, hmax, hback, hroom, if_true, Bool.false_eq_true, if_false]
      rw [ih hrec]
      rfl
  | case7 => cases h
  | case8 i c cs hquote hmax hback hroom ih =>
      obtain ⟨⟨d', e'⟩, hrec, heq⟩ := Option.map_eq_some_iff.mp h
      cases heq
      rw [parseJsonStringStores.eq_def]
      simp only [hquote, hmax, hback, hroom, if_true, Bool.false_eq_true, if_false]
      rw [ih hrec]
      rfl
  | case9 => cases h

/-! ## The modes agree -/

section

variable {json key p s : Bytes} {cap unlimited : Nat}

/-- A string in a text is no longer than the text. -/
theorem length_jsonDecoded_le (s : Bytes) : (jsonDecoded s).length ≤ s.length := by
  fun_induction jsonDecoded s with
  | case1 => exact Nat.le_refl 0
  | case2 c => exact Nat.le_refl 1
  | case3 e s ih =>
      simp only [List.length_cons]
      omega
  | case4 c e s hc ih =>
      simp only [List.length_cons] at ih ⊢
      omega

theorem length_jsonStringValue_le (h : jsonStringValue json key = some s) : s.length ≤ json.length := by
  obtain ⟨p, e, hfind, hparse⟩ := jsonStringValue_eq_some.mp h
  obtain ⟨body, rest, _, rfl, rfl, _⟩ := parseJsonStringValue_iff.mp hparse
  have hle := (findStringValueStart_suffix hfind).length_le
  have hdecoded := length_jsonDecoded_le body
  rw [List.length_append] at hle
  omega

/-- Without a limit and with memory, the allocating reader gives the string. -/
theorem jsonMiniExtractStringAlloc_unlimited (hunlimited : json.length ≤ unlimited) :
    jsonMiniExtractStringAlloc memory json key unlimited = some (some s) ↔ jsonStringValue json key = some s := by
  rw [jsonMiniExtractStringAlloc_eq_some]
  constructor
  · rintro ⟨h, _⟩
    exact h
  · intro h
    exact ⟨h, Nat.le_trans (length_jsonStringValue_le h) hunlimited, rfl⟩

/-- What the readers do with a string that is found. What the allocating reader gives without a limit, the others
    give where it fits, and it itself gives within a limit; its second pass does not fail, stores the decoded bytes
    and a NUL, and stores nothing behind them. -/
structure ReadersAgree (json key p : Bytes) (cap unlimited limit : Nat) : Prop where
  fixed : ∀ s, jsonMiniExtractString json key cap = some s
    ↔ jsonMiniExtractStringAlloc memory json key unlimited = some (some s) ∧ s.length < cap
  opt : jsonMiniExtractStringOpt json key cap = (jsonMiniExtractString json key cap).map some
  limited : ∀ s, jsonMiniExtractStringAlloc memory json key limit = some (some s)
    ↔ jsonMiniExtractStringAlloc memory json key unlimited = some (some s) ∧ s.length ≤ limit
  second : ∀ d e, parseJsonStringValue none (some limit) 0 p = some (d, e) →
    parseJsonStringValue (some (d.length + 1)) (some limit) 0 p = some (d, e)
      ∧ parseJsonStringStores (d.length + 1) (some limit) 0 p = storesFrom 0 (d ++ [0])
      ∧ (∀ x ∈ parseJsonStringStores (d.length + 1) (some limit) 0 p, x.1 ≤ d.length) ∧ (0 : UInt8) ∉ d

/-- **The readers agree** on every text, for every key whose value is found. `unlimited` is a limit that no string in
    the text exceeds, such as `SIZE_MAX`. -/
theorem jsonMiniExtract_agree (hjson : (0 : UInt8) ∉ json) (hfind : findStringValueStart json key = some p)
    (hcap : 1 ≤ cap) (hunlimited : json.length ≤ unlimited) (limit : Nat) :
    ReadersAgree json key p cap unlimited limit := by
  refine ⟨?_, ?_, ?_, ?_⟩
  · intro s
    rw [jsonMiniExtractString_eq_some, jsonMiniExtractStringAlloc_unlimited hunlimited]
  · have hne : (cap == 0) = false := by simpa using Nat.one_le_iff_ne_zero.mp hcap
    rw [jsonMiniExtractStringOpt, jsonMiniExtractString, hfind, hne]
    simp [Option.map_map]
    rfl
  · intro s
    rw [jsonMiniExtractStringAlloc_unlimited hunlimited, jsonMiniExtractStringAlloc_eq_some]
    exact ⟨fun h => ⟨h.1, h.2.1⟩, fun h => ⟨h.1, h.2, rfl⟩⟩
  · intro d e hmeasure
    obtain ⟨hfull, hfits⟩ := parseJsonStringValue_limits.mp hmeasure
    have hsecond : parseJsonStringValue (some (d.length + 1)) (some limit) 0 p = some (d, e) := by
      refine parseJsonStringValue_limits.mpr ⟨hfull, ?_, hfits.2⟩
      intro cap hcap
      cases hcap
      exact Nat.lt_succ_self _
    refine ⟨hsecond, parseJsonStringStores_eq hsecond, ?_, ?_⟩
    · intro x hx
      exact Nat.le_of_lt_succ (parseJsonStringStores_lt 0 p x hx)
    · exact nul_not_mem_jsonStringValue hjson (jsonStringValue_eq_some.mpr ⟨p, e, hfind, hfull⟩)

end

/-- The version of a manifest, read into four bytes, and with a limit of two. -/
theorem jsonMiniExtract_agree_version :
    ReadersAgree (ascii "\x7b\"version\":\"1.2\"\x7d") (ascii "version") (ascii "1.2\"\x7d") 4 100 2 :=
  jsonMiniExtract_agree (by decide +kernel) (by decide +kernel) (by decide) (by decide) 2

end LibUpdate
