import LibUpdate.Foundation.Quoted

/-!
# `JsonMini` — reading string members of a flat JSON object (`json_mini.c`)

A key is located by a substring search for its quoted form over the whole text; the value after it
is then decoded. A text is a C string: the end of the list is its NUL.
-/

namespace LibUpdate

def jsonMiniSkipWs (p : Bytes) : Bytes := p.dropWhile isspace

/-- The key between quotes, as the reader searches for it. -/
def jsonNeedle (key : Bytes) : Bytes := ch '"' :: key ++ [ch '"']

/-- `find_string_value_start`: the text after the opening quote of the key's value. -/
def findStringValueStart (json key : Bytes) : Option Bytes :=
  if key.length + 3 > 96 then none
  else
    match snprintf 96 (jsonNeedle key) with
    | none => none
    | some needle =>
        match strstr needle json with
        | none => none
        | some p =>
            match jsonMiniSkipWs (p.drop needle.length) with
            | [] => none
            | c :: p =>
                if c != ch ':' then none
                else
                  match jsonMiniSkipWs p with
                  | [] => none
                  | c :: p => if c != ch '"' then none else some p

/-- What an escaped character stands for; every other character stands for itself. -/
def jsonUnescape (c : UInt8) : UInt8 :=
  if c == ch 'n' then ch '\n'
  else if c == ch 'r' then ch '\r'
  else if c == ch 't' then ch '\t'
  else c

/-- Whether decoded byte number `i` and a NUL after it fit; `none` is the measuring pass (`out` is
    `NULL`). -/
def jsonRoom (outcap : Option Nat) (i : Nat) : Bool :=
  match outcap with
  | none => true
  | some cap => decide (i + 1 < cap)

/-- `parse_json_string_value` from decoded byte number `i` on: the decoded bytes and the text from
    the closing quote on. `maxDecoded` is `none` for `SIZE_MAX`. -/
def parseJsonStringValue (outcap maxDecoded : Option Nat) : Nat → Bytes → Option (Bytes × Bytes)
  | _, [] => none
  | i, c :: cs =>
      if c == ch '"' then
        if outcap.any (fun cap => decide (i ≥ cap)) then none else some ([], c :: cs)
      else if maxDecoded.any (fun m => decide (i ≥ m)) then none
      else if c == ch '\\' then
        match cs with
        | [] => none
        | e :: rest =>
            if jsonRoom outcap i then
              (parseJsonStringValue outcap maxDecoded (i + 1) rest).map
                fun (s, endp) => (jsonUnescape e :: s, endp)
            else none
      else if jsonRoom outcap i then
        (parseJsonStringValue outcap maxDecoded (i + 1) cs).map fun (s, endp) => (c :: s, endp)
      else none

/-- `json_mini_extract_string` into a buffer of `outcap` bytes. -/
def jsonMiniExtractString (json key : Bytes) (outcap : Nat) : Option Bytes :=
  if outcap == 0 then none
  else
    match findStringValueStart json key with
    | none => none
    | some p => (parseJsonStringValue (some outcap) none 0 p).map Prod.fst

/-- `json_mini_extract_string_opt` into a buffer of `outcap` bytes: `none` for -1, `some none` where the key is
    not there. -/
def jsonMiniExtractStringOpt (json key : Bytes) (outcap : Nat) : Option (Option Bytes) :=
  match findStringValueStart json key with
  | none => some none
  | some p =>
      if outcap == 0 then none
      else (parseJsonStringValue (some outcap) none 0 p).map fun (s, _) => some s

/-- `json_mini_extract_string_alloc`: a measuring pass, and a second one into a buffer of that size. -/
def jsonMiniExtractStringAlloc (alloc : Nat → Bool) (json key : Bytes) (maxValueLen : Nat) :
    Option (Option Bytes) :=
  match findStringValueStart json key with
  | none => some none
  | some p =>
      match parseJsonStringValue none (some maxValueLen) 0 p with
      | none => none
      | some (d, _) =>
          if alloc (d.length + 1) then
            (parseJsonStringValue (some (d.length + 1)) (some maxValueLen) 0 p).map fun (s, _) => some s
          else none

/-! ## The writer's side of a string

`json_emit_escaped_string` in `update_state.c` is the inverse that the updater uses. -/

/-- A backslash before a quote or a backslash. -/
def jsonEscapeChar (c : UInt8) : Bytes :=
  if c == ch '"' || c == ch '\\' then [ch '\\', c] else [c]

def jsonEscape (s : Bytes) : Bytes := s.flatMap jsonEscapeChar

/-- `json_emit_escaped_string`. -/
def jsonEmitEscapedString (s : Bytes) : Bytes := ch '"' :: jsonEscape s ++ [ch '"']

example : parseJsonStringValue (some 8) none 0 (ascii "a\\\"b\" tail") = some (ascii "a\"b", ascii "\" tail") := by
  decide +kernel

@[simp] theorem jsonEscape_nil : jsonEscape [] = [] := rfl
@[simp] theorem jsonEscape_cons (c : UInt8) (s : Bytes) :
    jsonEscape (c :: s) = jsonEscapeChar c ++ jsonEscape s := rfl

theorem jsonEscapeChar_special {c : UInt8} (h : c = ch '"' ∨ c = ch '\\') :
    jsonEscapeChar c = [ch '\\', c] := by
  rcases h with rfl | rfl <;> rfl

theorem jsonEscapeChar_plain {c : UInt8} (hq : c ≠ ch '"') (hb : c ≠ ch '\\') :
    jsonEscapeChar c = [c] := by
  simp [jsonEscapeChar, hq, hb]

/-! ## Decoding undoes escaping -/

/-- A decoding step over an escaped character. -/
theorem parseJsonStringValue_escapeChar {cap i : Nat} {c : UInt8} {rest : Bytes} (hroom : i + 1 < cap) :
    parseJsonStringValue (some cap) none i (jsonEscapeChar c ++ rest)
      = (parseJsonStringValue (some cap) none (i + 1) rest).map fun (s, endp) => (c :: s, endp) := by
  by_cases hspec : c = ch '"' ∨ c = ch '\\'
  · have hun : jsonUnescape c = c := by rcases hspec with rfl | rfl <;> rfl
    rw [jsonEscapeChar_special hspec]
    have hnq : (ch '\\' == ch '"') = false := by decide
    simp [parseJsonStringValue, jsonRoom, hroom, hun, hnq]
  · rw [not_or] at hspec
    rw [jsonEscapeChar_plain hspec.1 hspec.2, List.singleton_append]
    rw [parseJsonStringValue.eq_def]
    simp [jsonRoom, hroom, hspec.1, hspec.2]

/-- **Round trip of one value.** Reading an escaped string that fits gives the string back and stops
    at the closing quote. -/
theorem parseJsonStringValue_escape {cap : Nat} {s rest : Bytes} :
    ∀ i, i + s.length < cap →
      parseJsonStringValue (some cap) none i (jsonEscape s ++ ch '"' :: rest)
        = some (s, ch '"' :: rest) := by
  induction s with
  | nil =>
      intro i hcap
      have hi : i < cap := by simpa using hcap
      rw [jsonEscape_nil, List.nil_append, parseJsonStringValue.eq_def]
      simp [hi]
  | cons c s ih =>
      intro i hcap
      rw [List.length_cons] at hcap
      rw [jsonEscape_cons, List.append_assoc, parseJsonStringValue_escapeChar (by omega),
        ih (i + 1) (by omega)]
      rfl

/-! ## Searching for a key over emitted strings -/

/-- A key the writer uses: short, not empty, without the escaped characters and the punctuation. -/
structure PlainKey (key : Bytes) : Prop where
  nonempty : key ≠ []
  short : key.length ≤ 93
  quote : ch '"' ∉ key
  backslash : ch '\\' ∉ key
  punctuation : ∀ c ∈ key, c ≠ ch ':' ∧ c ≠ ch ',' ∧ c ≠ ch '}'

/-- The emitted text of a key is the key between quotes. -/
theorem jsonEscape_plain {s : Bytes} (hq : ch '"' ∉ s) (hb : ch '\\' ∉ s) : jsonEscape s = s := by
  induction s with
  | nil => rfl
  | cons c s ih =>
      rw [List.mem_cons, not_or] at hq hb
      rw [jsonEscape_cons, jsonEscapeChar_plain (Ne.symm hq.1) (Ne.symm hb.1), ih hq.2 hb.2]
      rfl

/-- An escape puts a backslash into the text, so only a plain key is emitted as the key. -/
theorem jsonEscape_eq_iff {key : Bytes} (hq : ch '"' ∉ key) (hb : ch '\\' ∉ key) {s : Bytes} :
    jsonEscape s = key ↔ s = key := by
  constructor
  · intro h
    induction s generalizing key with
    | nil => exact h
    | cons c s ih =>
        rw [jsonEscape_cons] at h
        by_cases hspec : c = ch '"' ∨ c = ch '\\'
        · rw [jsonEscapeChar_special hspec] at h
          exact absurd (by simp [← h]) hb
        · rw [not_or] at hspec
          rw [jsonEscapeChar_plain hspec.1 hspec.2, List.singleton_append] at h
          subst h
          rw [List.mem_cons, not_or] at hq hb
          rw [← ih hq.2 hb.2 rfl]
  · rintro rfl
    exact jsonEscape_plain hq hb

/-- What is emitted for a string is the inside of a quoted string. -/
theorem quotedBody_jsonEscape (s : Bytes) : QuotedBody (jsonEscape s) := by
  apply QuotedBody.flatMap
  intro c
  by_cases hspec : c = ch '"' ∨ c = ch '\\'
  · rw [jsonEscapeChar_special hspec]
    exact .escaped c .nil
  · rw [not_or] at hspec
    rw [jsonEscapeChar_plain hspec.1 hspec.2]
    exact .byte hspec.1 hspec.2 .nil

variable {key : Bytes}

/-- The string whose last characters after a quote are `key`: inside its emitted text the search for
    the key finds the escaped quote and the closing one. -/
def EndsInKey (key s : Bytes) : Prop := ch '"' :: key <:+ s

instance (key s : Bytes) : Decidable (EndsInKey key s) := inferInstanceAs (Decidable (_ <:+ _))

theorem PlainKey.plainWord (hk : PlainKey key) : PlainWord key := ⟨hk.quote, hk.backslash⟩

/-- Escaping keeps what a string ends in. -/
theorem endsInQuoted_jsonEscape (hk : PlainKey key) (s : Bytes) :
    EndsInQuoted key (jsonEscape s) ↔ s = key ∨ EndsInKey key s := by
  have hsuffix : ch '"' :: key <:+ jsonEscape s ↔ EndsInKey key s := by
    unfold EndsInKey
    induction s with
    | nil => rfl
    | cons c s ih =>
        rw [jsonEscape_cons]
        by_cases hquote : c = ch '"'
        · subst hquote
          -- behind the escaped quote the key may follow, or the rest may end in it
          rw [jsonEscapeChar_special (Or.inl rfl)]
          show _ <:+ ch '\\' :: ch '"' :: jsonEscape s ↔ _
          rw [suffix_byte (by decide), ← EndsInQuoted, endsInQuoted_iff, ih,
            jsonEscape_eq_iff hk.quote hk.backslash, ← endsInQuoted_iff]
          rfl
        · rw [suffix_byte hquote, ← ih]
          by_cases hback : c = ch '\\'
          · subst hback
            rw [jsonEscapeChar_special (Or.inr rfl)]
            show _ <:+ ch '\\' :: ch '\\' :: jsonEscape s ↔ _
            rw [suffix_byte hquote, suffix_byte hquote]
          · rw [jsonEscapeChar_plain hquote hback, List.singleton_append, suffix_byte hquote]
  rw [endsInQuoted_iff, jsonEscape_eq_iff hk.quote hk.backslash, hsuffix]

/-- No needle starts at a separator between two emitted strings. -/
theorem strstr_separator {sep : UInt8} {rest : Bytes} (hsep : sep ≠ ch '"') :
    strstr (jsonNeedle key) (sep :: rest) = strstr (jsonNeedle key) rest :=
  strstr_byte hsep

/-- **The search over one emitted string.** It stops at the string if that is the key, inside the
    string if that ends in a quote and the key, and otherwise goes on after it. -/
theorem strstr_emitted (hk : PlainKey key) {sep : UInt8} {rest : Bytes} (hsep : sep ≠ ch '"')
    (hhead : ¬ [sep] <+: key) (s : Bytes) :
    strstr (jsonNeedle key) (jsonEmitEscapedString s ++ sep :: rest)
      = if s = key ∨ EndsInKey key s then some (jsonNeedle key ++ sep :: rest)
        else strstr (jsonNeedle key) rest := by
  have hsplit : jsonEmitEscapedString s ++ sep :: rest
      = ch '"' :: (jsonEscape s ++ ch '"' :: sep :: rest) := by simp [jsonEmitEscapedString]
  -- the closing quote could only begin the needle if the separator began the key
  have hmiss : ¬ key ++ [ch '"'] <+: sep :: rest := by
    cases key with
    | nil => exact absurd rfl hk.nonempty
    | cons k key =>
        intro h
        exact hhead (by simp [(List.cons_prefix_cons.mp h).1])
  have hstring : strstr (jsonNeedle key) (ch '"' :: (jsonEscape s ++ ch '"' :: sep :: rest))
      = if EndsInQuoted key (jsonEscape s) then some (jsonNeedle key ++ sep :: rest)
        else strstr (jsonNeedle key) (ch '"' :: sep :: rest) :=
    strstr_string (quotedBody_jsonEscape s) hk.plainWord (sep :: rest)
  have hclose : strstr (jsonNeedle key) (ch '"' :: sep :: rest) = strstr (jsonNeedle key) (sep :: rest) :=
    strstr_quote hmiss
  rw [hsplit, hstring, hclose, strstr_separator hsep]
  simp only [endsInQuoted_jsonEscape hk]

/-! ## A flat object as a list of members -/

/-- The text of an object's members from the first one on, up to the end of the file. -/
def membersText : List (Bytes × Bytes) → Bytes
  | [] => []
  | [(k, v)] => jsonEmitEscapedString k ++ ch ':' :: (jsonEmitEscapedString v ++ ch '}' :: [ch '\n'])
  | (k, v) :: ms => jsonEmitEscapedString k ++ ch ':' :: (jsonEmitEscapedString v ++ ch ',' :: membersText ms)

/-- The byte after a member's value: a comma, or the brace that closes the object. -/
def memberEnd (ms : List (Bytes × Bytes)) : UInt8 := if ms.isEmpty then ch '}' else ch ','

/-- What follows that byte. -/
def membersRest (ms : List (Bytes × Bytes)) : Bytes := if ms.isEmpty then [ch '\n'] else membersText ms

theorem membersText_cons (k v : Bytes) (ms : List (Bytes × Bytes)) :
    membersText ((k, v) :: ms)
      = jsonEmitEscapedString k ++ ch ':' :: (jsonEmitEscapedString v ++ memberEnd ms :: membersRest ms) := by
  cases ms <;> rfl

theorem memberEnd_cases (ms : List (Bytes × Bytes)) : memberEnd ms = ch '}' ∨ memberEnd ms = ch ',' := by
  cases ms
  · exact Or.inl rfl
  · exact Or.inr rfl

theorem memberEnd_ne_quote (ms : List (Bytes × Bytes)) : memberEnd ms ≠ ch '"' := by
  rcases memberEnd_cases ms with h | h <;> rw [h] <;> decide

theorem PlainKey.not_head (hk : PlainKey key) {c : UInt8} (hc : c = ch ':' ∨ c = ch ',' ∨ c = ch '}') :
    ¬ [c] <+: key := by
  intro h
  have hp := hk.punctuation c (h.subset List.mem_cons_self)
  rcases hc with hc | hc | hc
  · exact hp.1 hc
  · exact hp.2.1 hc
  · exact hp.2.2 hc

theorem PlainKey.not_memberEnd (hk : PlainKey key) (ms : List (Bytes × Bytes)) : ¬ [memberEnd ms] <+: key :=
  hk.not_head (by rcases memberEnd_cases ms with h | h <;> simp [h])

/-- A member over which the search for `key` passes. -/
structure PassedBy (key : Bytes) (m : Bytes × Bytes) : Prop where
  key_ne : m.1 ≠ key
  key_end : ¬ EndsInKey key m.1
  value_ne : m.2 ≠ key
  value_end : ¬ EndsInKey key m.2

/-- The search passes over a member that does not hold the key. -/
theorem strstr_member (hk : PlainKey key) {m : Bytes × Bytes} (hm : PassedBy key m)
    (ms : List (Bytes × Bytes)) :
    strstr (jsonNeedle key) (membersText (m :: ms)) = strstr (jsonNeedle key) (membersRest ms) := by
  obtain ⟨k, v⟩ := m
  rw [membersText_cons, strstr_emitted hk (by decide) (hk.not_head (Or.inl rfl)),
    if_neg (not_or.mpr ⟨hm.key_ne, hm.key_end⟩),
    strstr_emitted hk (memberEnd_ne_quote ms) (hk.not_memberEnd ms),
    if_neg (not_or.mpr ⟨hm.value_ne, hm.value_end⟩)]

/-- The search passes over all members before the one it stops at. -/
theorem strstr_members (hk : PlainKey key) {m : Bytes × Bytes} {post : List (Bytes × Bytes)} :
    ∀ pre : List (Bytes × Bytes), (∀ m' ∈ pre, PassedBy key m') →
      strstr (jsonNeedle key) (membersText (pre ++ m :: post))
        = strstr (jsonNeedle key) (membersText (m :: post))
  | [], _ => rfl
  | m' :: pre, h => by
      rw [List.cons_append, strstr_member hk (h m' List.mem_cons_self)]
      have hne : (pre ++ m :: post).isEmpty = false := by cases pre <;> rfl
      rw [membersRest, hne]
      exact strstr_members hk pre fun m'' hm'' => h m'' (List.mem_cons_of_mem _ hm'')

/-- The value of a member begins after the key, a colon and a quote. -/
theorem findStringValueStart_of_strstr (hk : PlainKey key) {json rest : Bytes}
    (h : strstr (jsonNeedle key) json = some (jsonNeedle key ++ ch ':' :: ch '"' :: rest)) :
    findStringValueStart json key = some rest := by
  have hlen : (jsonNeedle key).length < 96 := by have := hk.short; simp [jsonNeedle]; omega
  have hshort : ¬ key.length + 3 > 96 := by have := hk.short; omega
  have hneedle : snprintf 96 (jsonNeedle key) = some (jsonNeedle key) := snprintf_eq_some.mpr ⟨hlen, rfl⟩
  have hc : isspace (ch ':') = false := by decide
  have hq : isspace (ch '"') = false := by decide
  simp [findStringValueStart, hshort, hneedle, h, jsonMiniSkipWs, hc, hq]

/-- Anything but a colon after the match makes the lookup fail. -/
theorem findStringValueStart_none_of_strstr (hk : PlainKey key) {json : Bytes} (rest : Bytes) {c : UInt8}
    (h : strstr (jsonNeedle key) json = some (jsonNeedle key ++ c :: rest))
    (hspace : isspace c = false) (hc : c ≠ ch ':') : findStringValueStart json key = none := by
  have hlen : (jsonNeedle key).length < 96 := by have := hk.short; simp [jsonNeedle]; omega
  have hshort : ¬ key.length + 3 > 96 := by have := hk.short; omega
  have hneedle : snprintf 96 (jsonNeedle key) = some (jsonNeedle key) := snprintf_eq_some.mpr ⟨hlen, rfl⟩
  simp [findStringValueStart, hshort, hneedle, h, jsonMiniSkipWs, hspace, hc]

/-- **A member is found** when the search passes over every member before it. -/
theorem findStringValueStart_member (hk : PlainKey key) {v : Bytes} {pre post : List (Bytes × Bytes)}
    (hpre : ∀ m ∈ pre, PassedBy key m) :
    findStringValueStart (ch '{' :: membersText (pre ++ (key, v) :: post)) key
      = some (jsonEscape v ++ ch '"' :: memberEnd post :: membersRest post) := by
  refine findStringValueStart_of_strstr hk ?_
  rw [strstr_separator (by decide), strstr_members hk pre hpre, membersText_cons,
    strstr_emitted hk (by decide) (hk.not_head (Or.inl rfl)), if_pos (Or.inl rfl)]
  simp [jsonEmitEscapedString]

/-- **A member is hidden** when a value before it is the key or ends in a quote and the key. -/
theorem findStringValueStart_hidden (hk : PlainKey key) {k v : Bytes} {pre post : List (Bytes × Bytes)}
    (hpre : ∀ m ∈ pre, PassedBy key m) (hkne : k ≠ key) (hkend : ¬ EndsInKey key k)
    (hv : v = key ∨ EndsInKey key v) :
    findStringValueStart (ch '{' :: membersText (pre ++ (k, v) :: post)) key = none := by
  refine findStringValueStart_none_of_strstr hk (membersRest post) (c := memberEnd post) ?_ ?_ ?_
  · rw [strstr_separator (by decide), strstr_members hk pre hpre, membersText_cons,
      strstr_emitted hk (by decide) (hk.not_head (Or.inl rfl)), if_neg (not_or.mpr ⟨hkne, hkend⟩),
      strstr_emitted hk (memberEnd_ne_quote post) (hk.not_memberEnd post), if_pos hv]
  · rcases memberEnd_cases post with h | h <;> rw [h] <;> decide
  · rcases memberEnd_cases post with h | h <;> rw [h] <;> decide

theorem jsonMiniExtractString_hidden (hk : PlainKey key) {k v : Bytes} (pre : List (Bytes × Bytes))
    {post : List (Bytes × Bytes)} (hpre : ∀ m ∈ pre, PassedBy key m) (hkne : k ≠ key) (hkend : ¬ EndsInKey key k)
    (hv : v = key ∨ EndsInKey key v) (outcap : Nat) :
    jsonMiniExtractString (ch '{' :: membersText (pre ++ (k, v) :: post)) key outcap = none := by
  rw [jsonMiniExtractString, findStringValueStart_hidden hk hpre hkne hkend hv]
  split <;> rfl

end LibUpdate
