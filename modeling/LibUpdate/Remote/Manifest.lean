import LibUpdate.Html.Allocation
import LibUpdate.Html.Termination
import LibUpdate.Json.Extract

/-!
# `Remote.Manifest` — parsing the manifest (`update_remote_check.c`)

The arrays of `update_info_t` are arrays of bytes, so that a cleared record is zero throughout. `fuel` is the
sanitizer's. A call gives its return value and what it leaves in `*out`.
-/

namespace LibUpdate

/-- `update_info_t`. -/
structure UpdateInfo where
  version : Vector UInt8 32
  downloadUrl : Vector UInt8 512
  checksum : Vector UInt8 65
  descriptionFormat : Vector UInt8 16
  description : Option Bytes

/-- All bytes are zero and `description` is `NULL`. -/
def UpdateInfo.zero : UpdateInfo :=
  ⟨.replicate 32 0, .replicate 512 0, .replicate 65 0, .replicate 16 0, none⟩

/-- `update_info_free`: what it leaves. -/
def updateInfoFree (_ : UpdateInfo) : UpdateInfo := .zero

/-- `copy_info_field`; `none` is the return value -1. -/
def copyInfoField {cap : Nat} (dst : Vector UInt8 cap) (src : Bytes) : Option (Vector UInt8 cap) :=
  if src.length + 1 > cap then none else some (memcpyAt dst 0 (src ++ [0]))

def formatTokenIsHtml (s : Bytes) : Bool := s.map asciiLowerUc == ascii "html"

/-- The buffers of `update_manifest_parse`: of the raw description, and of the HTML functions. -/
structure ManifestAlloc where
  raw : Nat → Bool
  html : Nat → Bool

/-- The description as it is handed on; `some none` is a failure. -/
def describe (alloc : ManifestAlloc) (fuel : Nat) (wantHtml : Bool) (descRaw : Bytes) : Option (Option Bytes) :=
  if wantHtml then updateHtmlSanitizeAlloc alloc.html htmlDescMaxOut fuel descRaw
  else some (updateHtmlEscapePlainAlloc alloc.html htmlDescMaxOut descRaw)

/-- What `update_manifest_parse` does with the strings it has read. -/
def fillInfo (alloc : ManifestAlloc) (fuel : Nat) (ver durl cks : Bytes) (dfmtRaw descRaw : Option Bytes) :
    Option (Int × UpdateInfo) :=
  let out := UpdateInfo.zero
  match copyInfoField out.version ver, copyInfoField out.downloadUrl durl, copyInfoField out.checksum cks with
  | some version, some downloadUrl, some checksum =>
      let out := { out with version, downloadUrl, checksum }
      let wantHtml := dfmtRaw.any formatTokenIsHtml
      match snprintf 16 (if wantHtml then ascii "html" else ascii "plaintext") with
      | none => some (-1, updateInfoFree out)
      | some format =>
          let out := { out with descriptionFormat := memcpyAt out.descriptionFormat 0 (format ++ [0]) }
          match descRaw with
          | none => some (0, out)
          | some descRaw =>
              match describe alloc fuel wantHtml descRaw with
              | none => none
              | some none => some (-1, updateInfoFree out)
              | some (some description) => some (0, { out with description := some description })
  | _, _, _ => some (-1, updateInfoFree out)

/-- `update_manifest_parse`. -/
def updateManifestParse (alloc : ManifestAlloc) (fuel : Nat) (body : Bytes) : Option (Int × UpdateInfo) :=
  match jsonMiniExtractString body (ascii "version") 256, jsonMiniExtractString body (ascii "download_url") 512,
      jsonMiniExtractString body (ascii "checksum") 96 with
  | some ver, some durl, some cks =>
      match jsonMiniExtractStringOpt body (ascii "description_format") 48 with
      | none => some (-1, .zero)
      | some dfmtRaw =>
          match jsonMiniExtractStringAlloc alloc.raw body (ascii "description") htmlDescMaxIn with
          | none => some (-1, .zero)
          | some descRaw => fillInfo alloc fuel ver durl cks dfmtRaw descRaw
  | _, _, _ => some (-1, .zero)

/-! ## What a result says -/

/-- The manifest asks for HTML: it has a format, and the reader takes it for that of HTML. -/
def WantsHtml (body : Bytes) : Prop :=
  ∃ v, jsonStringValue body (ascii "description_format") = some v ∧ formatTokenIsHtml v = true

/-- A member as a C string in an array of `cap` bytes: the whole of its value. -/
def HoldsValue {cap : Nat} (body key : Bytes) (field : Vector UInt8 cap) : Prop :=
  ∃ v, jsonStringValue body key = some v ∧ v.length < cap ∧ cstr field.toList = v

/-- What is handed on as the description of the value `v`: the whole output, as with memory enough. -/
def IsDescription (body v description : Bytes) : Prop :=
  (WantsHtml body → ∃ fuel, updateHtmlSanitizeAlloc memory htmlDescMaxOut fuel v = some (some description))
    ∧ (¬ WantsHtml body → description = escaped v)

/-- The record of a manifest that was accepted: each member holds the value that the text has for its key, and the
    description is what its format asks for. -/
structure ManifestRead (body : Bytes) (out : UpdateInfo) : Prop where
  version : HoldsValue body (ascii "version") out.version
  download_url : HoldsValue body (ascii "download_url") out.downloadUrl
  checksum : HoldsValue body (ascii "checksum") out.checksum
  html : WantsHtml body → cstr out.descriptionFormat.toList = ascii "html"
  plaintext : ¬ WantsHtml body → cstr out.descriptionFormat.toList = ascii "plaintext"
  no_description : out.description = none ↔ findStringValueStart body (ascii "description") = none
  description : ∀ d, out.description = some d →
    ∃ v, jsonStringValue body (ascii "description") = some v ∧ IsDescription body v d

/-- All of the manifest was read, or nothing is left of it. -/
def AllOrNothing (body : Bytes) (r : Int × UpdateInfo) : Prop :=
  (r.1 = 0 ∧ ManifestRead body r.2) ∨ (r.1 = -1 ∧ r.2 = .zero)

/-- The call comes to sanitize `v`: the members before it are read and fit, and the manifest asks for HTML. Only
    then can the call fail to come back. -/
structure ComesToSanitize (alloc : ManifestAlloc) (body v : Bytes) : Prop where
  version : ∃ w, jsonStringValue body (ascii "version") = some w ∧ w.length < 32
  download_url : ∃ w, jsonStringValue body (ascii "download_url") = some w ∧ w.length < 512
  checksum : ∃ w, jsonStringValue body (ascii "checksum") = some w ∧ w.length < 65
  html : WantsHtml body
  value : jsonStringValue body (ascii "description") = some v
  short : v.length ≤ htmlDescMaxIn
  allocated : alloc.raw (v.length + 1) = true

/-! ## The fields -/

theorem cstr_memcpyAt {cap : Nat} (dst : Vector UInt8 cap) {src : Bytes} (hsrc : (0 : UInt8) ∉ src)
    (hlen : src.length < cap) : cstr (memcpyAt dst 0 (src ++ [0])).toList = src := by
  have htake := take_memcpyAt dst 0 (src ++ [0]) (by rw [List.length_append, List.length_singleton]; omega)
  rw [List.take_zero, List.nil_append] at htake
  have hsplit := List.take_append_drop (0 + (src ++ [0]).length) (memcpyAt dst 0 (src ++ [0])).toList
  rw [htake] at hsplit
  rw [← hsplit, List.append_assoc]
  unfold cstr
  rw [List.takeWhile_append_of_pos fun c hc => by simpa using fun h : c = 0 => hsrc (h ▸ hc)]
  simp

theorem copyInfoField_eq_some {cap : Nat} {dst a : Vector UInt8 cap} {src : Bytes} :
    copyInfoField dst src = some a ↔ src.length < cap ∧ a = memcpyAt dst 0 (src ++ [0]) := by
  unfold copyInfoField
  split
  · next h => exact ⟨fun hc => absurd hc (by simp), fun hc => absurd hc.1 (by omega)⟩
  · next h => exact ⟨fun hc => ⟨by omega, (Option.some.inj hc).symm⟩, fun hc => by rw [hc.2]⟩

section Parse

variable {alloc : ManifestAlloc} {fuel : Nat} {body : Bytes}

/-- Only a format that fits in the buffer can ask for HTML. -/
theorem wantsHtml_iff {dfmtRaw : Option Bytes}
    (h : jsonMiniExtractStringOpt body (ascii "description_format") 48 = some dfmtRaw) :
    dfmtRaw.any formatTokenIsHtml = true ↔ WantsHtml body := by
  cases dfmtRaw with
  | none =>
      have hfind := jsonMiniExtractStringOpt_eq_none_iff.mp h
      constructor
      · intro hany
        cases hany
      · rintro ⟨v, hv, _⟩
        obtain ⟨p, _, hp, _⟩ := jsonStringValue_eq_some.mp hv
        rw [hfind] at hp
        cases hp
  | some v =>
      have hv := (jsonMiniExtractString_eq_some.mp (jsonMiniExtractStringOpt_eq_some.mp h)).1
      constructor
      · intro hany
        exact ⟨v, hv, hany⟩
      · rintro ⟨w, hw, hhtml⟩
        rw [hv] at hw
        cases hw
        exact hhtml

theorem describe_isDescription {wantHtml : Bool} (hhtml : wantHtml = true ↔ WantsHtml body) {v d : Bytes}
    (h : describe alloc fuel wantHtml v = some (some d)) : IsDescription body v d := by
  unfold describe at h
  constructor
  · intro hwants
    rw [if_pos (hhtml.mpr hwants)] at h
    exact ⟨fuel, updateHtmlSanitizeAlloc_more (givesMore_memory _) h⟩
  · intro hwants
    rw [if_neg fun hw => hwants (hhtml.mp hw)] at h
    have hplain := Option.some.inj h
    unfold updateHtmlEscapePlainAlloc at hplain
    split at hplain; · cases hplain
    split at hplain; · cases hplain
    next b hb =>
    obtain ⟨b', hb', rfl⟩ := Option.map_eq_some_iff.mp hplain
    rw [emitHtmlEscaped_d hb', bufInit_d hb, List.nil_append]

/-- The strings that are handed to `fillInfo`. -/
structure StringsRead (alloc : ManifestAlloc) (body ver durl cks : Bytes) (dfmtRaw descRaw : Option Bytes) :
    Prop where
  version : jsonMiniExtractString body (ascii "version") 256 = some ver
  download_url : jsonMiniExtractString body (ascii "download_url") 512 = some durl
  checksum : jsonMiniExtractString body (ascii "checksum") 96 = some cks
  format : jsonMiniExtractStringOpt body (ascii "description_format") 48 = some dfmtRaw
  description : jsonMiniExtractStringAlloc alloc.raw body (ascii "description") htmlDescMaxIn = some descRaw

theorem holdsValue_of_copy {cap outcap : Nat} {key v : Bytes} {dst a : Vector UInt8 cap}
    (hbody : (0 : UInt8) ∉ body)
    (hv : jsonMiniExtractString body key outcap = some v) (hcopy : copyInfoField dst v = some a) :
    HoldsValue body key a := by
  have hvalue := (jsonMiniExtractString_eq_some.mp hv).1
  obtain ⟨hlen, rfl⟩ := copyInfoField_eq_some.mp hcopy
  exact ⟨v, hvalue, hlen, cstr_memcpyAt dst (nul_not_mem_jsonStringValue hbody hvalue) hlen⟩

/-- **What `fillInfo` returns is all or nothing.** -/
theorem fillInfo_allOrNothing (hbody : (0 : UInt8) ∉ body) {ver durl cks : Bytes} {dfmtRaw descRaw : Option Bytes}
    (hread : StringsRead alloc body ver durl cks dfmtRaw descRaw) {r : Int × UpdateInfo}
    (h : fillInfo alloc fuel ver durl cks dfmtRaw descRaw = some r) : AllOrNothing body r := by
  have hnothing (out : UpdateInfo) : AllOrNothing body (-1, updateInfoFree out) := Or.inr ⟨rfl, rfl⟩
  have hhtml := wantsHtml_iff hread.format
  unfold fillInfo at h
  dsimp only at h
  split at h
  · next version downloadUrl checksum hversion hurl hsum =>
    split at h
    · cases h
      exact hnothing _
    · next format hformat =>
      obtain ⟨hfits, rfl⟩ := snprintf_eq_some.mp hformat
      -- the three fields and the format, whatever becomes of the description
      have hfields (d : Option Bytes)
          (hnone : d = none ↔ findStringValueStart body (ascii "description") = none)
          (hsome : ∀ t, d = some t → ∃ v, jsonStringValue body (ascii "description") = some v ∧ IsDescription body v t) :
          ManifestRead body ⟨version, downloadUrl, checksum, memcpyAt UpdateInfo.zero.descriptionFormat 0
            ((if dfmtRaw.any formatTokenIsHtml then ascii "html" else ascii "plaintext") ++ [0]), d⟩ := by
        refine ⟨holdsValue_of_copy hbody hread.version hversion, holdsValue_of_copy hbody hread.download_url hurl,
          holdsValue_of_copy hbody hread.checksum hsum, ?_, ?_, hnone, hsome⟩
        · intro hwants
          rw [if_pos (hhtml.mpr hwants)]
          exact cstr_memcpyAt _ (by decide) (by decide)
        · intro hwants
          rw [if_neg fun hw => hwants (hhtml.mp hw)]
          exact cstr_memcpyAt _ (by decide) (by decide)
      cases descRaw with
      | none =>
          cases h
          refine Or.inl ⟨rfl, hfields none ?_ (by simp)⟩
          exact iff_of_true rfl (jsonMiniExtractStringAlloc_eq_none_iff.mp hread.description)
      | some raw =>
          obtain ⟨hvalue, _, _⟩ := jsonMiniExtractStringAlloc_eq_some.mp hread.description
          dsimp only at h
          split at h
          · cases h
          · cases h
            exact hnothing _
          · next d hd =>
            cases h
            refine Or.inl ⟨rfl, hfields (some d) ?_ ?_⟩
            · obtain ⟨p, _, hp, _⟩ := jsonStringValue_eq_some.mp hvalue
              simp [hp]
            · intro t ht
              cases ht
              exact ⟨raw, hvalue, describe_isDescription hhtml hd⟩
  · cases h
    exact hnothing _

/-- `fillInfo` does not come back only where the sanitizer does not. -/
theorem fillInfo_eq_none {ver durl cks : Bytes} {dfmtRaw descRaw : Option Bytes} :
    fillInfo alloc fuel ver durl cks dfmtRaw descRaw = none
      ↔ ver.length < 32 ∧ durl.length < 512 ∧ cks.length < 65 ∧ dfmtRaw.any formatTokenIsHtml = true
        ∧ ∃ v, descRaw = some v ∧ updateHtmlSanitizeAlloc alloc.html htmlDescMaxOut fuel v = none := by
  have hformat : ∃ format, snprintf 16 (if dfmtRaw.any formatTokenIsHtml then ascii "html" else ascii "plaintext")
      = some format := by
    split
    · exact ⟨ascii "html", by decide⟩
    · exact ⟨ascii "plaintext", by decide⟩
  obtain ⟨format, hformat⟩ := hformat
  unfold fillInfo
  dsimp only
  rw [hformat]
  split
  · next version downloadUrl checksum hversion hurl hsum =>
    have hv := (copyInfoField_eq_some.mp hversion).1
    have hu := (copyInfoField_eq_some.mp hurl).1
    have hc := (copyInfoField_eq_some.mp hsum).1
    cases descRaw with
    | none => simp
    | some raw =>
        dsimp only
        unfold describe
        by_cases hhtml : dfmtRaw.any formatTokenIsHtml = true
        · simp only [hhtml, if_true, hv, hu, hc, true_and, Option.some.injEq, exists_eq_left']
          cases updateHtmlSanitizeAlloc alloc.html htmlDescMaxOut fuel raw with
          | none => simp
          | some o => cases o <;> simp
        · simp only [hhtml, Bool.false_eq_true, false_and, and_false, iff_false, if_false]
          cases updateHtmlEscapePlainAlloc alloc.html htmlDescMaxOut raw <;> simp
  · next hcopy =>
    simp only [reduceCtorEq, false_iff]
    rintro ⟨hv, hu, hc, _⟩
    exact hcopy _ _ _ (copyInfoField_eq_some.mpr ⟨hv, rfl⟩) (copyInfoField_eq_some.mpr ⟨hu, rfl⟩)
      (copyInfoField_eq_some.mpr ⟨hc, rfl⟩)

/-- The ways through `update_manifest_parse`. -/
theorem updateManifestParse_cases (alloc : ManifestAlloc) (body : Bytes) :
    (∃ ver durl cks dfmtRaw descRaw, StringsRead alloc body ver durl cks dfmtRaw descRaw
        ∧ ∀ fuel, updateManifestParse alloc fuel body = fillInfo alloc fuel ver durl cks dfmtRaw descRaw)
      ∨ (¬ ∃ ver durl cks dfmtRaw descRaw, StringsRead alloc body ver durl cks dfmtRaw descRaw)
        ∧ ∀ fuel, updateManifestParse alloc fuel body = some (-1, .zero) := by
  unfold updateManifestParse
  cases hver : jsonMiniExtractString body (ascii "version") 256 with
  | none => exact Or.inr ⟨fun ⟨_, _, _, _, _, h⟩ => by simpa [hver] using h.version, fun _ => rfl⟩
  | some ver =>
  cases hurl : jsonMiniExtractString body (ascii "download_url") 512 with
  | none => exact Or.inr ⟨fun ⟨_, _, _, _, _, h⟩ => by simpa [hurl] using h.download_url, fun _ => rfl⟩
  | some durl =>
  cases hcks : jsonMiniExtractString body (ascii "checksum") 96 with
  | none => exact Or.inr ⟨fun ⟨_, _, _, _, _, h⟩ => by simpa [hcks] using h.checksum, fun _ => rfl⟩
  | some cks =>
  cases hfmt : jsonMiniExtractStringOpt body (ascii "description_format") 48 with
  | none => exact Or.inr ⟨fun ⟨_, _, _, _, _, h⟩ => by simpa [hfmt] using h.format, fun _ => rfl⟩
  | some dfmtRaw =>
  cases hdesc : jsonMiniExtractStringAlloc alloc.raw body (ascii "description") htmlDescMaxIn with
  | none => exact Or.inr ⟨fun ⟨_, _, _, _, _, h⟩ => by simpa [hdesc] using h.description, fun _ => rfl⟩
  | some descRaw => exact Or.inl ⟨ver, durl, cks, dfmtRaw, descRaw, ⟨hver, hurl, hcks, hfmt, hdesc⟩, fun _ => rfl⟩

theorem updateManifestParse_allOrNothing (hbody : (0 : UInt8) ∉ body) {r : Int × UpdateInfo}
    (h : updateManifestParse alloc fuel body = some r) : AllOrNothing body r := by
  rcases updateManifestParse_cases alloc body with ⟨ver, durl, cks, dfmtRaw, descRaw, hread, heq⟩ | ⟨_, heq⟩
  · rw [heq] at h
    exact fillInfo_allOrNothing hbody hread h
  · rw [heq] at h
    cases h
    exact Or.inr ⟨rfl, rfl⟩

/-- The call that comes to sanitize a description does not come back where the sanitizer does not. -/
theorem updateManifestParse_eq_none :
    updateManifestParse alloc fuel body = none
      ↔ ∃ v, ComesToSanitize alloc body v ∧ updateHtmlSanitizeAlloc alloc.html htmlDescMaxOut fuel v = none := by
  have hvalue {key v : Bytes} {outcap : Nat} (h : jsonMiniExtractString body key outcap = some v) :
      jsonStringValue body key = some v := (jsonMiniExtractString_eq_some.mp h).1
  constructor
  · intro h
    rcases updateManifestParse_cases alloc body with ⟨ver, durl, cks, dfmtRaw, descRaw, hread, heq⟩ | ⟨_, heq⟩
    · rw [heq, fillInfo_eq_none] at h
      obtain ⟨hv, hu, hc, hhtml, v, rfl, hnone⟩ := h
      obtain ⟨hdesc, hlen, halloc⟩ := jsonMiniExtractStringAlloc_eq_some.mp hread.description
      exact ⟨v, ⟨⟨ver, hvalue hread.version, hv⟩, ⟨durl, hvalue hread.download_url, hu⟩,
        ⟨cks, hvalue hread.checksum, hc⟩, (wantsHtml_iff hread.format).mp hhtml, hdesc, hlen, halloc⟩, hnone⟩
    · rw [heq] at h
      cases h
  · rintro ⟨v, hcomes, hnone⟩
    obtain ⟨⟨ver, hver, hv⟩, ⟨durl, hurl, hu⟩, ⟨cks, hcks, hc⟩, ⟨fmt, hfmt, hhtml⟩, hdesc, hlen, halloc⟩ := hcomes
    have hfmtlen : fmt.length < 48 := by
      have := congrArg List.length (eq_of_beq hhtml)
      rw [List.length_map] at this
      rw [this]
      decide
    have hread : StringsRead alloc body ver durl cks (some fmt) (some v) :=
      ⟨jsonMiniExtractString_eq_some.mpr ⟨hver, by omega⟩, jsonMiniExtractString_eq_some.mpr ⟨hurl, hu⟩,
        jsonMiniExtractString_eq_some.mpr ⟨hcks, by omega⟩,
        jsonMiniExtractStringOpt_eq_some.mpr (jsonMiniExtractString_eq_some.mpr ⟨hfmt, hfmtlen⟩),
        jsonMiniExtractStringAlloc_eq_some.mpr ⟨hdesc, hlen, halloc⟩⟩
    rcases updateManifestParse_cases alloc body with ⟨ver', durl', cks', dfmt', desc', hread', heq⟩ | ⟨hno, _⟩
    · cases hread.version.symm.trans hread'.version
      cases hread.download_url.symm.trans hread'.download_url
      cases hread.checksum.symm.trans hread'.checksum
      cases hread.format.symm.trans hread'.format
      cases hread.description.symm.trans hread'.description
      rw [heq, fillInfo_eq_none]
      exact ⟨hv, hu, hc, hhtml, v, rfl, hnone⟩
    · exact absurd ⟨ver, durl, cks, some fmt, some v, hread⟩ hno

end Parse

/-- **Parsing a manifest is all or nothing** exactly where it comes back: where every pass of the sanitizer
    that it comes to has an attribute text of the grammar, if it parses one. -/
theorem updateManifestParse_all_or_nothing_iff (alloc : ManifestAlloc) (body : Bytes) (hbody : (0 : UInt8) ∉ body) :
    (∃ fuel r, updateManifestParse alloc fuel body = some r ∧ AllOrNothing body r)
      ↔ ∀ v, ComesToSanitize alloc body v → ∀ st, ComesTo alloc.html htmlDescMaxOut v st → LinkOk alloc.html st := by
  constructor
  · rintro ⟨fuel, r, hrun, _⟩ v hcomes
    rw [← updateHtmlSanitizeAlloc_returns_iff, returns_iff_ne_none]
    refine ⟨fuel, fun hnone => ?_⟩
    rw [updateManifestParse_eq_none.mpr ⟨v, hcomes, hnone⟩] at hrun
    cases hrun
  · intro h
    by_cases hcomes : ∃ v, ComesToSanitize alloc body v
    · obtain ⟨v, hcomes⟩ := hcomes
      obtain ⟨fuel, o, ho⟩ := (updateHtmlSanitizeAlloc_returns_iff alloc.html htmlDescMaxOut v).mpr (h v hcomes)
      cases hrun : updateManifestParse alloc fuel body with
      | none =>
          obtain ⟨w, hw, hnone⟩ := updateManifestParse_eq_none.mp hrun
          cases hw.value.symm.trans hcomes.value
          rw [ho] at hnone
          cases hnone
      | some r => exact ⟨fuel, r, hrun, updateManifestParse_allOrNothing hbody hrun⟩
    · cases hrun : updateManifestParse alloc 0 body with
      | none =>
          obtain ⟨v, hv, _⟩ := updateManifestParse_eq_none.mp hrun
          exact absurd ⟨v, hv⟩ hcomes
      | some r => exact ⟨0, r, hrun, updateManifestParse_allOrNothing hbody hrun⟩

/-- A manifest whose description is a link with a quoted target. -/
def quotedManifest : Bytes :=
  ascii "\x7b\"version\":\"1\",\"download_url\":\"u\",\"checksum\":\"c\"," ++
    ascii "\"description_format\":\"html\",\"description\":\"<a href='http://x'>x</a>\"\x7d"

theorem updateManifestParse_all_or_nothing_quoted :
    ∃ fuel r, updateManifestParse ⟨memory, memory⟩ fuel quotedManifest = some r ∧ AllOrNothing quotedManifest r := by
  refine (updateManifestParse_all_or_nothing_iff ⟨memory, memory⟩ quotedManifest (by decide +kernel)).mpr ?_
  intro v hv
  have hlink : jsonStringValue quotedManifest (ascii "description") = some (ascii "<a href='http://x'>x</a>") := by
    decide +kernel
  rw [hv.value] at hlink
  obtain rfl := Option.some.inj hlink
  refine (updateHtmlSanitizeAlloc_returns_iff memory htmlDescMaxOut _).mp
    ⟨40, some (ascii "<a href=\"http://x\">x</a>"), ?_⟩
  decide +kernel

/-- A manifest whose description is a link with an unquoted target. -/
def linkManifest : Bytes :=
  ascii "\x7b\"version\":\"1\",\"download_url\":\"u\",\"checksum\":\"c\"," ++
    ascii "\"description_format\":\"html\",\"description\":\"<a href=http://x>\"\x7d"

/-- **The call does not come back** on that manifest. -/
theorem updateManifestParse_hangs :
    ¬ ∃ fuel r, updateManifestParse ⟨memory, memory⟩ fuel linkManifest = some r ∧ AllOrNothing linkManifest r := by
  rintro ⟨fuel, r, hrun, _⟩
  have hcomes : ComesToSanitize ⟨memory, memory⟩ linkManifest unquotedLink :=
    ⟨⟨ascii "1", by decide +kernel⟩, ⟨ascii "u", by decide +kernel⟩, ⟨ascii "c", by decide +kernel⟩,
      ⟨ascii "html", by decide +kernel⟩, by decide +kernel, by decide +kernel, rfl⟩
  cases hout : updateHtmlSanitizeAlloc memory htmlDescMaxOut fuel unquotedLink with
  | none =>
      rw [updateManifestParse_eq_none.mpr ⟨unquotedLink, hcomes, hout⟩] at hrun
      cases hrun
  | some o => exact not_returns_unquotedLink ⟨fuel, o, hout⟩

end LibUpdate
