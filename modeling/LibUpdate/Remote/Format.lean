import LibUpdate.Json.Object
import LibUpdate.Remote.Manifest

/-!
# `Remote.Format` — a manifest with an unknown `description_format` (`update_remote_check.c`)

Two runs are compared: of a manifest in which no format is found, and of the same manifest with one more member,
whose value asks for nothing that the library knows. The README has the format treated as plaintext. What becomes of
the second run depends on two things that have nothing to do with formats: whether the value fits the buffer it is
copied to, and whether it is written like the end of a key that is looked up behind it.
-/

namespace LibUpdate

open Rfc8259

/-! ## The keys -/

/-- The keys of which the values must stay. -/
def manifestKeys : List Bytes := [ascii "version", ascii "download_url", ascii "checksum", ascii "description"]

def formatKey : Bytes := ascii "description_format"

theorem wordKey_of {k : Bytes} (hplain : ch '"' ∉ k ∧ ch '\\' ∉ k) (hshort : k.length ≤ 93)
    (hword : k.any (fun c => !isTokenByte c) = true) : WordKey k := by
  obtain ⟨c, hc, hno⟩ := List.any_eq_true.mp hword
  exact ⟨⟨hplain.1, hplain.2⟩, hshort, c, hc, by simpa using hno⟩

theorem formatKey_word : WordKey formatKey := wordKey_of (by decide +kernel) (by decide +kernel) (by decide +kernel)

theorem manifestKeys_word {k : Bytes} (h : k ∈ manifestKeys) : WordKey k := by
  simp only [manifestKeys, List.mem_cons, List.not_mem_nil, or_false] at h
  rcases h with rfl | rfl | rfl | rfl
  · exact wordKey_of (by decide +kernel) (by decide +kernel) (by decide +kernel)
  · exact wordKey_of (by decide +kernel) (by decide +kernel) (by decide +kernel)
  · exact wordKey_of (by decide +kernel) (by decide +kernel) (by decide +kernel)
  · exact wordKey_of (by decide +kernel) (by decide +kernel) (by decide +kernel)

/-! ## The member -/

/-- The key of the format, as a literal. -/
def formatLiteral : Literal := Key.literal ⟨"description_format".toList, forall_unescaped (by decide)⟩

theorem formatLiteral_text : formatLiteral.text = formatKey := by decide +kernel

/-- The white space around the parts of a member. -/
structure Spacing where
  beforeKey : Whitespace
  beforeColon : Whitespace
  afterColon : Whitespace
  afterValue : Whitespace

/-- A member `description_format` with a string as its value. -/
def formatField (w : Spacing) (v : Literal) : Field :=
  ⟨w.beforeKey, formatLiteral, w.beforeColon, w.afterColon, .string v, w.afterValue⟩

/-- A format that is not `html`, in any case of the letters. -/
def NotHtml (v : Literal) : Prop := ∀ cs, v.value = some cs → formatTokenIsHtml (utf8 cs) = false

section Member

variable {w : Spacing} {v : Literal} {k : Bytes}

theorem formatField_pieces :
    (formatField w v).pieces
      = [.tokens w.beforeKey.text, .string formatKey, .tokens (w.beforeColon.text ++ ch ':' :: w.afterColon.text),
        .tokens [], .string v.text, .tokens [], .tokens w.afterValue.text] := by
  rw [Field.pieces, formatField, formatLiteral_text]
  rfl

theorem colon_among (a b : Whitespace) : ColonAmongSpaces ([] ++ (a.text ++ ch ':' :: b.text) ++ []) :=
  ⟨a.text, b.text, a.isspace, b.isspace, by simp⟩

/-- The format of the member is found. -/
theorem formatField_value :
    Stops formatKey (formatField w v).pieces
      ∧ valueIn formatKey (formatField w v).pieces = some (jsonDecoded v.text) := by
  have hend : EndsInQuoted formatKey formatKey := endsInQuoted_iff.mpr (Or.inl rfl)
  rw [formatField_pieces]
  refine ⟨⟨formatKey, by simp, hend⟩, ?_⟩
  simp only [valueIn, lookupAt, stringAfter, if_pos hend, if_pos (colon_among _ _), Option.map_some]

/-- Another key is found in the member only where the value is written like the end of the key, and there it has no
    value. -/
theorem formatField_other (hk : k ∈ manifestKeys) :
    (Stops k (formatField w v).pieces ↔ EndsInQuoted k v.text)
      ∧ valueIn k (formatField w v).pieces = none := by
  have hkey : ¬ EndsInQuoted k formatKey := by
    simp only [manifestKeys, List.mem_cons, List.not_mem_nil, or_false] at hk
    rcases hk with rfl | rfl | rfl | rfl <;> decide +kernel
  rw [formatField_pieces]
  constructor
  · constructor
    · rintro ⟨s, hs, hend⟩
      simp only [List.mem_cons, List.not_mem_nil, or_false, reduceCtorEq, false_or, Piece.string.injEq] at hs
      rcases hs with rfl | rfl
      · exact absurd hend hkey
      · exact hend
    · intro hend
      exact ⟨v.text, by simp, hend⟩
  · by_cases hend : EndsInQuoted k v.text
    · simp [valueIn, lookupAt, stringAfter, hkey, hend]
    · simp [valueIn, lookupAt, hkey, hend]

end Member

/-! ## What the decoder makes of it -/

/-- Only the letters themselves are decoded to the letters of `html`. -/
theorem decoded_html {v : Literal} (h : ∀ c ∈ v.flatMap Item.decoded, asciiLowerUc c ∈ ascii "html") :
    ∃ cs, v.value = some cs ∧ v.flatMap Item.decoded = utf8 cs := by
  induction v with
  | nil => exact ⟨[], rfl, rfl⟩
  | cons i v ih =>
      rw [List.flatMap_cons, List.forall_mem_append] at h
      obtain ⟨cs, hvalue, hdecoded⟩ := ih h.2
      cases i with
      | char c hc =>
          refine ⟨c :: cs, ?_, ?_⟩
          · rw [Literal.value, hvalue]
            rfl
          · rw [List.flatMap_cons, hdecoded]
            rfl
      | escape e =>
          have hletter := h.1 (jsonUnescape e.letter) (by simp [Item.decoded])
          exact absurd hletter (by cases e <;> decide +kernel)
      | unit u =>
          have hletter := h.1 (ch 'u') (by simp [Item.decoded])
          exact absurd hletter (by decide +kernel)

/-- A format that is not `html` is not decoded to it. -/
theorem NotHtml.decoded {v : Literal} (h : NotHtml v) : formatTokenIsHtml (jsonDecoded v.text) = false := by
  cases hhtml : formatTokenIsHtml (jsonDecoded v.text) with
  | false => rfl
  | true =>
      rw [v.jsonDecoded_text] at hhtml
      have hmap : (v.flatMap Item.decoded).map asciiLowerUc = ascii "html" := eq_of_beq hhtml
      obtain ⟨cs, hvalue, hdecoded⟩ := decoded_html (v := v) fun c hc => by
        rw [← hmap]
        exact List.mem_map_of_mem hc
      rw [hdecoded, h cs hvalue] at hhtml
      cases hhtml

/-! ## Without HTML, the format does not count -/

section Fill

variable {alloc : ManifestAlloc} {ver durl cks : Bytes} {descRaw : Option Bytes}

/-- Whatever format it is that does not ask for HTML, and whatever fuel the sanitizer would get. -/
theorem fillInfo_plain {f f' : Option Bytes} (hf : f.any formatTokenIsHtml = false)
    (hf' : f'.any formatTokenIsHtml = false) (fuel fuel' : Nat) :
    fillInfo alloc fuel ver durl cks f descRaw = fillInfo alloc fuel' ver durl cks f' descRaw := by
  unfold fillInfo describe
  simp only [hf, hf']
  rfl

/-- A record that is accepted has a description where a raw one was read, and its format is the one asked for. -/
theorem fillInfo_ok {fuel : Nat} {f : Option Bytes} {out : UpdateInfo}
    (h : fillInfo alloc fuel ver durl cks f descRaw = some (0, out)) :
    (out.description = none ↔ descRaw = none)
      ∧ (f.any formatTokenIsHtml = false → cstr out.descriptionFormat.toList = ascii "plaintext") := by
  have hplain : ∀ v : Vector UInt8 16, cstr (memcpyAt v 0 (ascii "plaintext" ++ [0])).toList = ascii "plaintext" :=
    fun v => cstr_memcpyAt v (by decide +kernel) (by decide +kernel)
  unfold fillInfo at h
  dsimp only at h
  split at h
  · split at h
    · cases h
    · next format hformat =>
      obtain ⟨_, rfl⟩ := snprintf_eq_some.mp hformat
      cases descRaw with
      | none =>
          cases h
          refine ⟨iff_of_true rfl rfl, ?_⟩
          intro hf
          simp only [hf, Bool.false_eq_true, if_false]
          exact hplain _
      | some raw =>
          dsimp only at h
          split at h
          · cases h
          · cases h
          · cases h
            refine ⟨by simp, ?_⟩
            intro hf
            simp only [hf, Bool.false_eq_true, if_false]
            exact hplain _
  · cases h

end Fill

/-! ## The two manifests -/

/-- The manifest with the members `pre` and `post`. -/
def manifestOf (o : Object) (pre post : List Field) : Object := { o with fields := pre ++ post }

/-- The member between `pre` and the others is not noticed: the reader comes to its value only if it fits in the
    buffer, and no key with a value is looked for past a value that is written like the end of the key. -/
structure Unnoticed (o : Object) (pre post : List Field) (v : Literal) : Prop where
  fits : ¬ Stops formatKey (fieldsPieces pre) → (jsonDecoded v.text).length < 48
  clear : ∀ k ∈ manifestKeys, ¬ Stops k (fieldsPieces pre) →
    jsonStringValue (manifestOf o pre post).text k ≠ none → ¬ EndsInQuoted k v.text

section Added

variable (o : Object) (pre post : List Field) (w : Spacing) (v : Literal) {k : Bytes}

/-- What the added member changes for another key. -/
theorem valueIn_added (hk : k ∈ manifestKeys) :
    (¬ Stops k (fieldsPieces pre) → EndsInQuoted k v.text →
        valueIn k (manifestOf o pre (formatField w v :: post)).pieces = none)
      ∧ ((¬ Stops k (fieldsPieces pre) → ¬ EndsInQuoted k v.text) →
        valueIn k (manifestOf o pre (formatField w v :: post)).pieces
          = valueIn k (manifestOf o pre post).pieces) := by
  obtain ⟨hstop, hpass⟩ := valueIn_split (k := k) o pre post
  obtain ⟨hstop', hpass'⟩ := valueIn_split (k := k) o pre (formatField w v :: post)
  obtain ⟨hin, hover⟩ := valueIn_behind_cons (k := k) o (formatField w v) post
  obtain ⟨hstops, hnone⟩ := formatField_other (w := w) (v := v) hk
  constructor
  · intro hp hend
    exact (hpass' hp).trans ((hin (hstops.mpr hend)).trans hnone)
  · intro hclear
    by_cases hp : Stops k (fieldsPieces pre)
    · exact (hstop' hp).trans (hstop hp).symm
    · have hskip : ¬ Stops k (formatField w v).pieces := fun h => hclear hp (hstops.mp h)
      exact (hpass' hp).trans ((hover hskip).trans (hpass hp).symm)

/-- What the reader of the format finds. -/
theorem valueIn_added_format :
    (¬ Stops formatKey (fieldsPieces pre) →
        valueIn formatKey (manifestOf o pre (formatField w v :: post)).pieces = some (jsonDecoded v.text))
      ∧ (Stops formatKey (fieldsPieces pre) →
        valueIn formatKey (manifestOf o pre (formatField w v :: post)).pieces
          = valueIn formatKey (manifestOf o pre post).pieces) := by
  obtain ⟨hstop, _⟩ := valueIn_split (k := formatKey) o pre post
  obtain ⟨hstop', hpass'⟩ := valueIn_split (k := formatKey) o pre (formatField w v :: post)
  obtain ⟨hstops, hvalue⟩ := formatField_value (w := w) (v := v)
  constructor
  · intro hp
    exact (hpass' hp).trans (((valueIn_behind_cons o _ post).1 hstops).trans hvalue)
  · intro hp
    exact (hstop' hp).trans (hstop hp).symm

end Added

/-! ## The readers on two objects -/

section Readers

variable {k : Bytes} {o o' : Object} {cap : Nat}

/-- Where a key has the same value, the readers give the same. -/
theorem readers_congr (hk : WordKey k) (h : valueIn k o'.pieces = valueIn k o.pieces) :
    (∀ s, jsonMiniExtractString o'.text k cap = some s ↔ jsonMiniExtractString o.text k cap = some s)
      ∧ ∀ alloc r, jsonMiniExtractStringAlloc alloc o'.text k cap = some r
        ↔ jsonMiniExtractStringAlloc alloc o.text k cap = some r := by
  have hvalue : jsonStringValue o'.text k = jsonStringValue o.text k := by
    rw [o'.jsonStringValue_eq hk, o.jsonStringValue_eq hk, h]
  constructor
  · intro s
    rw [jsonMiniExtractString_eq_some, jsonMiniExtractString_eq_some, hvalue]
  · intro alloc r
    cases r with
    | none =>
        rw [jsonMiniExtractStringAlloc_eq_none_iff, jsonMiniExtractStringAlloc_eq_none_iff,
          o'.findStringValueStart_eq_none_iff hk, o.findStringValueStart_eq_none_iff hk, h]
    | some s => rw [jsonMiniExtractStringAlloc_eq_some, jsonMiniExtractStringAlloc_eq_some, hvalue]

/-- Where no format is found, none is read. -/
theorem format_absent (h : valueIn formatKey o.pieces = none) :
    jsonMiniExtractStringOpt o.text formatKey 48 = some none :=
  jsonMiniExtractStringOpt_eq_none_iff.mpr ((o.findStringValueStart_eq_none_iff formatKey_word).mpr h)

/-- Where a format is found, it is read if it fits. -/
theorem format_present {s : Bytes} (h : valueIn formatKey o.pieces = some s) :
    (s.length < 48 → jsonMiniExtractStringOpt o.text formatKey 48 = some (some s))
      ∧ (48 ≤ s.length → jsonMiniExtractStringOpt o.text formatKey 48 = none) := by
  have hvalue : jsonStringValue o.text formatKey = some s := (o.jsonStringValue_eq formatKey_word).trans h
  constructor
  · intro hlen
    exact jsonMiniExtractStringOpt_eq_some.mpr (jsonMiniExtractString_eq_some.mpr ⟨hvalue, hlen⟩)
  · intro hlen
    cases hopt : jsonMiniExtractStringOpt o.text formatKey 48 with
    | none => rfl
    | some r =>
        cases r with
        | none =>
            have hnone := (o.findStringValueStart_eq_none_iff formatKey_word).mp
              (jsonMiniExtractStringOpt_eq_none_iff.mp hopt)
            rw [h] at hnone
            cases hnone
        | some s' =>
            obtain ⟨hs', hlen'⟩ := jsonMiniExtractString_eq_some.mp (jsonMiniExtractStringOpt_eq_some.mp hopt)
            rw [hvalue] at hs'
            cases hs'
            omega

end Readers

theorem updateManifestParse_of_read {alloc : ManifestAlloc} {body ver durl cks : Bytes} {f descRaw : Option Bytes}
    (h : StringsRead alloc body ver durl cks f descRaw) (fuel : Nat) :
    updateManifestParse alloc fuel body = fillInfo alloc fuel ver durl cks f descRaw := by
  unfold updateManifestParse
  simp only [h.version, h.download_url, h.checksum, h.format, h.description]

/-- A call that accepts has read the strings. -/
theorem read_of_accepted {alloc : ManifestAlloc} {fuel : Nat} {body : Bytes} {out : UpdateInfo}
    (h : updateManifestParse alloc fuel body = some (0, out)) :
    ∃ ver durl cks f descRaw, StringsRead alloc body ver durl cks f descRaw
      ∧ fillInfo alloc fuel ver durl cks f descRaw = some (0, out) := by
  rcases updateManifestParse_cases alloc body with ⟨ver, durl, cks, f, descRaw, hread, heq⟩ | ⟨_, heq⟩
  · rw [heq] at h
    exact ⟨ver, durl, cks, f, descRaw, hread, h⟩
  · rw [heq] at h
    cases h

/-- A key that was read has a value. -/
theorem value_of_read {o : Object} {k s : Bytes} {cap : Nat} (hk : k ∈ manifestKeys)
    (h : jsonMiniExtractString o.text k cap = some s) : valueIn k o.pieces ≠ none := by
  rw [← o.jsonStringValue_eq (manifestKeys_word hk), (jsonMiniExtractString_eq_some.mp h).1]
  simp

/-- An accepted manifest has no description exactly where the reader finds none. -/
theorem description_none_iff {o : Object} {alloc : ManifestAlloc} {fuel : Nat} {ver durl cks : Bytes}
    {f descRaw : Option Bytes} {out : UpdateInfo} (hread : StringsRead alloc o.text ver durl cks f descRaw)
    (hfill : fillInfo alloc fuel ver durl cks f descRaw = some (0, out)) :
    out.description = none ↔ valueIn (ascii "description") o.pieces = none := by
  have hk : ascii "description" ∈ manifestKeys := by simp [manifestKeys]
  rw [(fillInfo_ok hfill).1, ← Object.findStringValueStart_eq_none_iff (manifestKeys_word hk),
    ← jsonMiniExtractStringAlloc_eq_none_iff, hread.description, Option.some.injEq]

section Degrades

variable {o : Object} {pre post : List Field} {w : Spacing} {v : Literal} {alloc : ManifestAlloc}
variable {ver durl cks : Bytes} {descRaw : Option Bytes}

/-- A member that is not noticed leaves the strings that are read, and asks for no HTML. -/
theorem Unnoticed.read (h : Unnoticed o pre post v) (hv : NotHtml v)
    (hwithout : valueIn formatKey (manifestOf o pre post).pieces = none)
    (hread : StringsRead alloc (manifestOf o pre post).text ver durl cks none descRaw) :
    ∃ f, StringsRead alloc (manifestOf o pre (formatField w v :: post)).text ver durl cks f descRaw
      ∧ f.any formatTokenIsHtml = false := by
  have hsame : ∀ k ∈ manifestKeys, valueIn k (manifestOf o pre (formatField w v :: post)).pieces
      = valueIn k (manifestOf o pre post).pieces := by
    intro k hk
    obtain ⟨hhides, hkeeps⟩ := valueIn_added o pre post w v hk
    by_cases hend : EndsInQuoted k v.text
    · by_cases hp : Stops k (fieldsPieces pre)
      · exact hkeeps fun hpass => absurd hp hpass
      · have habsent : jsonStringValue (manifestOf o pre post).text k = none := by
          cases hvalue : jsonStringValue (manifestOf o pre post).text k with
          | none => rfl
          | some s => exact absurd hend (h.clear k hk hp (by rw [hvalue]; simp))
        rw [hhides hp hend, ← Object.jsonStringValue_eq (manifestKeys_word hk), habsent]
    · exact hkeeps fun _ => hend
  have hstring : ∀ {k s cap}, k ∈ manifestKeys →
      jsonMiniExtractString (manifestOf o pre post).text k cap = some s →
      jsonMiniExtractString (manifestOf o pre (formatField w v :: post)).text k cap = some s :=
    fun hk hs => ((readers_congr (manifestKeys_word hk) (hsame _ hk)).1 _).mpr hs
  have hdesc : ascii "description" ∈ manifestKeys := by simp [manifestKeys]
  obtain ⟨hfound, hhidden⟩ := valueIn_added_format o pre post w v
  have hformat : ∃ f, jsonMiniExtractStringOpt (manifestOf o pre (formatField w v :: post)).text formatKey 48 = some f
      ∧ f.any formatTokenIsHtml = false := by
    by_cases hp : Stops formatKey (fieldsPieces pre)
    · exact ⟨none, format_absent ((hhidden hp).trans hwithout), rfl⟩
    · exact ⟨some (jsonDecoded v.text), (format_present (hfound hp)).1 (h.fits hp), hv.decoded⟩
  obtain ⟨f, hf, hplain⟩ := hformat
  refine ⟨f, ⟨hstring (by simp [manifestKeys]) hread.version, hstring (by simp [manifestKeys]) hread.download_url,
    hstring (by simp [manifestKeys]) hread.checksum, hf, ?_⟩, hplain⟩
  exact ((readers_congr (manifestKeys_word hdesc) (hsame _ hdesc)).2 _ _).mpr hread.description

end Degrades

/-- **An unknown format degrades to plaintext** exactly where the added member is not noticed. -/
theorem updateManifestParse_unknownFormat_iff (o : Object) (pre post : List Field) (w : Spacing)
    {v : Literal} (hv : NotHtml v) {alloc : ManifestAlloc} {fuel : Nat} {out : UpdateInfo}
    (haccepted : updateManifestParse alloc fuel (manifestOf o pre post).text = some (0, out))
    (hwithout : findStringValueStart (manifestOf o pre post).text formatKey = none) (fuel' : Nat) :
    (∃ out', updateManifestParse alloc fuel' (manifestOf o pre (formatField w v :: post)).text
        = some (0, out')
      ∧ cstr out'.descriptionFormat.toList = ascii "plaintext" ∧ out'.version = out.version
      ∧ out'.downloadUrl = out.downloadUrl ∧ out'.checksum = out.checksum ∧ out'.description = out.description)
      ↔ Unnoticed o pre post v := by
  have hwithout : valueIn formatKey (manifestOf o pre post).pieces = none :=
    (Object.findStringValueStart_eq_none_iff formatKey_word _).mp hwithout
  obtain ⟨ver, durl, cks, f, descRaw, hread, hfill⟩ := read_of_accepted haccepted
  obtain rfl : f = none := by
    have hformat := hread.format
    rw [← formatKey, format_absent hwithout] at hformat
    exact (Option.some.inj hformat).symm
  constructor
  · rintro ⟨out', hrun, _, _, _, _, hdescription⟩
    obtain ⟨ver', durl', cks', f', descRaw', hread', hfill'⟩ := read_of_accepted hrun
    obtain ⟨hfound, _⟩ := valueIn_added_format o pre post w v
    refine ⟨?_, ?_⟩
    · intro hp
      by_cases hlen : (jsonDecoded v.text).length < 48
      · exact hlen
      · have hformat := hread'.format
        rw [← formatKey, (format_present (hfound hp)).2 (by omega)] at hformat
        cases hformat
    · intro k hk hp hvalue hend
      have hhidden := (valueIn_added o pre post w v hk).1 hp hend
      have hkey := hk
      simp only [manifestKeys, List.mem_cons, List.not_mem_nil, or_false] at hkey
      rcases hkey with rfl | rfl | rfl | rfl
      · exact value_of_read hk hread'.version hhidden
      · exact value_of_read hk hread'.download_url hhidden
      · exact value_of_read hk hread'.checksum hhidden
      · -- the description is lost
        have hlost : out.description = none := hdescription ▸ (description_none_iff hread' hfill').mpr hhidden
        rw [Object.jsonStringValue_eq (manifestKeys_word hk)] at hvalue
        exact hvalue ((description_none_iff hread hfill).mp hlost)
  · intro h
    obtain ⟨f, hread', hplain⟩ := h.read (w := w) hv hwithout hread
    have hnone : (none : Option Bytes).any formatTokenIsHtml = false := rfl
    have hrun : updateManifestParse alloc fuel' (manifestOf o pre (formatField w v :: post)).text = some (0, out) := by
      rw [updateManifestParse_of_read hread', fillInfo_plain hplain hnone fuel' fuel, hfill]
    exact ⟨out, hrun, (fillInfo_ok hfill).2 rfl, rfl, rfl, rfl, rfl⟩

/-! ## Three formats -/

/-- A string that is written without escapes. -/
def plainLiteral (s : String) (h : s.toList.all fun c => decide (Unescaped c)) : Literal :=
  Key.literal ⟨s.toList, forall_unescaped h⟩

/-- A member without white space, with a string as its value. -/
def plainField (key value : Literal) : Field := ⟨.none, key, .none, .none, .string value, .none⟩

/-- Nothing stands around the members. -/
def bareObject : Object := ⟨.none, .none, [], .none⟩

/-- The members of a manifest with a description. -/
def notesFields : List Field :=
  [plainField (plainLiteral "version" (by decide)) (plainLiteral "2.0" (by decide)),
    plainField (plainLiteral "download_url" (by decide)) (plainLiteral "http://h/p" (by decide)),
    plainField (plainLiteral "checksum" (by decide)) (plainLiteral "00" (by decide)),
    plainField (plainLiteral "description" (by decide)) (plainLiteral "*hi*" (by decide))]

def noSpacing : Spacing := ⟨.none, .none, .none, .none⟩

theorem notesFields_accepted :
    (updateManifestParse ⟨memory, memory⟩ 1 (manifestOf bareObject [] notesFields).text).map Prod.fst = some 0 := by
  decide +kernel

/-- A short format in front of the members. -/
theorem updateManifestParse_unknownFormat_markdown :
    ∃ out out', updateManifestParse ⟨memory, memory⟩ 1 (manifestOf bareObject [] notesFields).text = some (0, out)
      ∧ updateManifestParse ⟨memory, memory⟩ 1 (manifestOf bareObject []
          (formatField noSpacing (plainLiteral "markdown" (by decide)) :: notesFields)).text = some (0, out')
      ∧ out'.description = out.description := by
  obtain ⟨⟨rc, out⟩, hrun, hrc⟩ := Option.map_eq_some_iff.mp notesFields_accepted
  obtain rfl : rc = 0 := hrc
  have hplain : NotHtml (plainLiteral "markdown" (by decide)) := by
    intro cs hcs
    have hvalue : (plainLiteral "markdown" (by decide)).value = some "markdown".toList := by decide +kernel
    rw [hvalue] at hcs
    cases hcs
    decide +kernel
  have hunnoticed : Unnoticed bareObject [] notesFields (plainLiteral "markdown" (by decide)) := by
    refine ⟨fun _ => by decide +kernel, ?_⟩
    intro k hk _ _
    simp only [manifestKeys, List.mem_cons, List.not_mem_nil, or_false] at hk
    rcases hk with rfl | rfl | rfl | rfl <;> decide +kernel
  obtain ⟨out', hrun', _, _, _, _, hdescription⟩ :=
    (updateManifestParse_unknownFormat_iff bareObject [] notesFields noSpacing hplain hrun (by decide +kernel) 1).mpr
      hunnoticed
  exact ⟨out, out', hrun, hrun', hdescription⟩

/-- **A format may block the update**: a long one does not fit in the buffer, and one that is spelled like a key hides
    that key; the manifest is accepted without them. -/
theorem updateManifestParse_unknownFormat_blocks :
    (updateManifestParse ⟨memory, memory⟩ 1 (manifestOf bareObject [] notesFields).text).map Prod.fst = some 0
      ∧ (updateManifestParse ⟨memory, memory⟩ 1 (manifestOf bareObject [] (formatField noSpacing
          (plainLiteral "text/markdown; charset=UTF-8; variant=CommonMark-0.31" (by decide)) :: notesFields)).text).map
            Prod.fst = some (-1)
      ∧ (updateManifestParse ⟨memory, memory⟩ 1 (manifestOf bareObject [] (formatField noSpacing
          (plainLiteral "version" (by decide)) :: notesFields)).text).map Prod.fst = some (-1) := by
  decide +kernel

end LibUpdate
