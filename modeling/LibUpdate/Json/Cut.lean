import LibUpdate.Json.Extract
import LibUpdate.Json.Lookup

/-!
# `Json.Cut` — texts that are cut short (`json_mini.c`)

A text may end too early: a file that was not written to its end, a response that was not received to its end.
The lookup searches from the front and a string ends at its closing quote, so a text and the front of it give the
same string where the front reaches beyond that quote, and the front alone gives none.
-/

namespace LibUpdate

variable {json key p t : Bytes}

/-- A key is found in the front of a text exactly where it is found in the text and its value begins in the front. -/
theorem findStringValueStart_append (hk : key.length ≤ 93) :
    findStringValueStart (json ++ t) key = some (p ++ t) ↔ findStringValueStart json key = some p := by
  rw [findStringValueStart_eq hk, findStringValueStart_eq hk, searchValue, searchValue, Option.bind_eq_some_iff,
    Option.bind_eq_some_iff]
  constructor
  · rintro ⟨e, hfound, hvalue⟩
    obtain ⟨x, hsplit, ⟨rest, rfl⟩, hfirst⟩ := strstr_eq_some hfound
    rw [List.drop_left] at hvalue
    obtain ⟨w, w', hw, hw', rfl⟩ := valueAfter_eq_some.mp hvalue
    -- what is behind the value's quote holds all that was cut off
    obtain rfl : json = x ++ (quoted key ++ (w ++ ch ':' :: (w' ++ ch '"' :: p))) := by
      rw [← List.append_left_inj t, hsplit]
      simp
    refine ⟨_, strstr_first (List.prefix_append _ _) fun q hq hlt => hfirst q ?_ hlt, ?_⟩
    · exact hq.trans (List.prefix_append _ t)
    · rw [List.drop_left]
      exact valueAfter_eq_some.mpr ⟨w, w', hw, hw', rfl⟩
  · rintro ⟨e, hfound, hvalue⟩
    obtain ⟨x, _, ⟨rest, rfl⟩, _⟩ := strstr_eq_some hfound
    rw [List.drop_left] at hvalue
    obtain ⟨w, w', hw, hw', rfl⟩ := valueAfter_eq_some.mp hvalue
    refine ⟨_, strstr_append hfound t, ?_⟩
    rw [List.append_assoc, List.drop_left]
    exact valueAfter_eq_some.mpr ⟨w, w', hw, hw', by simp⟩

/-- A lookup that leads anywhere had room for its needle. -/
theorem length_key_of_found (h : findStringValueStart json key = some p) : key.length ≤ 93 := by
  unfold findStringValueStart at h
  split at h
  · cases h
  · omega

/-- A string ends at the same quote in the front of a text as in the text. -/
theorem parseJsonStringValue_append {outcap maxDecoded : Option Nat} {d e : Bytes} (he : e ≠ []) :
    parseJsonStringValue outcap maxDecoded 0 (p ++ t) = some (d, e ++ t)
      ↔ parseJsonStringValue outcap maxDecoded 0 p = some (d, e) := by
  rw [parseJsonStringValue_iff, parseJsonStringValue_iff]
  constructor
  · rintro ⟨s, rest, hs, hp, hd, hquote, hfits⟩
    obtain ⟨c, e, rfl⟩ := List.exists_cons_of_ne_nil he
    obtain ⟨rfl, rfl⟩ := List.cons.inj hquote
    refine ⟨s, e, hs, ?_, hd, rfl, hfits⟩
    rw [← List.append_left_inj t, hp, List.append_assoc]
    rfl
  · rintro ⟨s, rest, hs, rfl, hd, rfl, hfits⟩
    exact ⟨s, rest ++ t, hs, by simp, hd, by simp, hfits⟩

/-- **What is read of the front of a text is read of the text.** -/
theorem jsonStringValue_front {v q : Bytes} (h : jsonStringValue json key = some v) (hq : json <+: q) :
    jsonStringValue q key = some v := by
  obtain ⟨t, rfl⟩ := hq
  obtain ⟨p, e, hstart, hparse⟩ := jsonStringValue_eq_some.mp h
  have hne : e ≠ [] := by
    obtain ⟨_, _, _, _, _, rfl, _⟩ := parseJsonStringValue_iff.mp hparse
    exact List.cons_ne_nil _ _
  exact jsonStringValue_eq_some.mpr ⟨p ++ t, e ++ t,
    (findStringValueStart_append (length_key_of_found hstart)).mpr hstart, (parseJsonStringValue_append hne).mpr hparse⟩

theorem jsonMiniExtractString_front {v q : Bytes} {outcap : Nat} (h : jsonMiniExtractString json key outcap = some v)
    (hq : json <+: q) : jsonMiniExtractString q key outcap = some v := by
  obtain ⟨hvalue, hlen⟩ := jsonMiniExtractString_eq_some.mp h
  exact jsonMiniExtractString_eq_some.mpr ⟨jsonStringValue_front hvalue hq, hlen⟩

/-! ## Members -/

theorem membersRest_pos (ms : List (Bytes × Bytes)) : 0 < (membersRest ms).length := by
  match ms with
  | [] => decide
  | (k, v) :: ms =>
      change 0 < (membersText ((k, v) :: ms)).length
      rw [membersText_cons, List.length_append, List.length_cons]
      omega

/-- **Reading a member of an object that is cut short.** The member is read with its whole value exactly where its
    closing quote is still there. -/
theorem jsonMiniExtractString_cut_iff (hk : PlainKey key) (v : Bytes) (pre post : List (Bytes × Bytes))
    (outcap : Nat) {w front : Bytes} (hpre : ∀ m ∈ pre, PassedBy key m) (hcap : v.length < outcap)
    (htext : front ++ t = ch '{' :: membersText (pre ++ (key, v) :: post)) :
    jsonMiniExtractString front key outcap = some w ↔ w = v ∧ t.length ≤ (membersRest post).length + 1 := by
  have hstart : findStringValueStart (ch '{' :: membersText (pre ++ (key, v) :: post)) key
      = some (jsonEscape v ++ ch '"' :: memberEnd post :: membersRest post) := findStringValueStart_member hk hpre
  have hparse : parseJsonStringValue (some outcap) none 0 (jsonEscape v ++ ch '"' :: memberEnd post :: membersRest post)
      = some (v, ch '"' :: memberEnd post :: membersRest post) := parseJsonStringValue_escape 0 (by omega)
  rw [← htext] at hstart
  constructor
  · intro h
    obtain ⟨hvalue, _⟩ := jsonMiniExtractString_eq_some.mp h
    obtain ⟨p, e, hfront, hread⟩ := jsonStringValue_eq_some.mp hvalue
    obtain ⟨s, rest, _, _, _, rfl, _⟩ := parseJsonStringValue_iff.mp hread
    have hsame := hstart.symm.trans ((findStringValueStart_append hk.short (t := t)).mpr hfront)
    have hwhole := (parseJsonStringValue_append (List.cons_ne_nil _ _) (t := t)).mpr hread
    rw [← Option.some.inj hsame, (parseJsonStringValue_limits.mp hparse).1] at hwhole
    obtain ⟨rfl, hquote⟩ := Prod.mk.inj (Option.some.inj hwhole)
    have hlen := congrArg List.length hquote
    simp only [List.length_cons, List.length_append] at hlen
    exact ⟨rfl, by omega⟩
  · rintro ⟨rfl, hshort⟩
    -- the cut leaves the closing quote, so it is a cut of what follows the value
    obtain ⟨x, hx⟩ : t <:+ memberEnd post :: membersRest post := by
      have hvalue : memberEnd post :: membersRest post <:+ front ++ t :=
        .trans ⟨jsonEscape w ++ [ch '"'], by simp⟩ (findStringValueStart_suffix hstart)
      exact List.suffix_of_suffix_length_le (List.suffix_append front t) hvalue (by simpa using hshort)
    rw [← hx] at hstart hparse
    have hfront : findStringValueStart front key = some (jsonEscape w ++ ch '"' :: x) :=
      (findStringValueStart_append hk.short (t := t)).mp (by rw [hstart]; simp)
    have hread : parseJsonStringValue (some outcap) none 0 (jsonEscape w ++ ch '"' :: x) = some (w, ch '"' :: x) :=
      (parseJsonStringValue_append (List.cons_ne_nil _ _) (t := t)).mp (by simpa using hparse)
    exact jsonMiniExtractString_eq_some.mpr
      ⟨jsonStringValue_eq_some.mpr ⟨_, _, hfront, (parseJsonStringValue_limits.mp hread).1⟩, hcap⟩

end LibUpdate
