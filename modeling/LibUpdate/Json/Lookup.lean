import LibUpdate.JsonMini
import LibUpdate.Json.Decode

/-!
# `Json.Lookup` — finding a member of a flat object (`json_mini.c`)

`findStringValueStart` looks for the quoted key in the whole text of an object. `Findable` says for which
members in front of the key, or of all members where the key is none of them, it finds what a parser finds:
`findStringValueStart_flat_iff`.
-/

namespace LibUpdate

/-- What `find_string_value_start` does behind the quoted key: white space, a colon, white space, a quote. -/
def valueAfter (p : Bytes) : Option Bytes :=
  match jsonMiniSkipWs p with
  | [] => none
  | c :: p =>
      if c != ch ':' then none
      else
        match jsonMiniSkipWs p with
        | [] => none
        | c :: p => if c != ch '"' then none else some p

/-- The search and what follows it. -/
def searchValue (k json : Bytes) : Option Bytes :=
  (strstr (quoted k) json).bind fun p => valueAfter (p.drop (quoted k).length)

theorem findStringValueStart_eq {k : Bytes} (hk : k.length ≤ 93) (json : Bytes) :
    findStringValueStart json k = searchValue k json := by
  have hneedle : snprintf 96 (jsonNeedle k) = some (jsonNeedle k) :=
    snprintf_eq_some.mpr ⟨by simp [jsonNeedle]; omega, rfl⟩
  rw [findStringValueStart, if_neg (by omega), hneedle, searchValue]
  dsimp only
  show _ = (strstr (jsonNeedle k) json).bind _
  cases strstr (jsonNeedle k) json with
  | none => rfl
  | some p => rfl

/-! ## Behind the key -/

theorem isspace_quote : isspace (ch '"') = false := by decide

theorem isspace_colon : isspace (ch ':') = false := by decide

/-- A colon among white space, and a quote. -/
theorem valueAfter_eq_some {p q : Bytes} :
    valueAfter p = some q ↔ ∃ w w', (∀ c ∈ w, isspace c = true) ∧ (∀ c ∈ w', isspace c = true)
      ∧ p = w ++ ch ':' :: (w' ++ ch '"' :: q) := by
  constructor
  · intro h
    unfold valueAfter at h
    split at h
    · cases h
    · next c p₁ hp₁ =>
      split at h
      · cases h
      · next hcolon =>
        split at h
        · cases h
        · next c' p₂ hp₂ =>
          split at h
          · cases h
          · next hquote =>
            cases h
            refine ⟨p.takeWhile isspace, p₁.takeWhile isspace, forall_takeWhile _ _, forall_takeWhile _ _, ?_⟩
            have hc : c = ch ':' := by simpa using hcolon
            have hc' : c' = ch '"' := by simpa using hquote
            rw [← hc, ← hc', ← hp₂, jsonMiniSkipWs, List.takeWhile_append_dropWhile, ← hp₁, jsonMiniSkipWs,
              List.takeWhile_append_dropWhile]
  · rintro ⟨w, w', hw, hw', rfl⟩
    have hfirst : jsonMiniSkipWs (w ++ ch ':' :: (w' ++ ch '"' :: q)) = ch ':' :: (w' ++ ch '"' :: q) :=
      dropWhile_span hw (by simpa using isspace_colon)
    have hsecond : jsonMiniSkipWs (w' ++ ch '"' :: q) = ch '"' :: q :=
      dropWhile_span hw' (by simpa using isspace_quote)
    simp [valueAfter, hfirst, hsecond]

/-- Another byte than a colon is no value. -/
theorem valueAfter_none {w : Bytes} (hw : ∀ c ∈ w, isspace c = true) {c : UInt8} (hspace : isspace c = false)
    (hc : c ≠ ch ':') (rest : Bytes) : valueAfter (w ++ c :: rest) = none := by
  have hfirst : jsonMiniSkipWs (w ++ c :: rest) = c :: rest := dropWhile_span hw (by simpa using hspace)
  simp [valueAfter, hfirst, hc]

/-- The text between two strings that a reader takes for the end of a key. -/
def ColonAmongSpaces (s : Bytes) : Prop :=
  ∃ w w', (∀ c ∈ w, isspace c = true) ∧ (∀ c ∈ w', isspace c = true) ∧ s = w ++ ch ':' :: w'

theorem colonAmongSpaces_iff {s : Bytes} :
    ColonAmongSpaces s
      ↔ (s.dropWhile isspace).head? = some (ch ':') ∧ (s.dropWhile isspace).tail.all isspace = true := by
  rw [List.all_eq_true]
  constructor
  · rintro ⟨w, w', hw, hw', rfl⟩
    have hdrop : (w ++ ch ':' :: w').dropWhile isspace = ch ':' :: w' :=
      dropWhile_span hw (by simpa using isspace_colon)
    rw [hdrop]
    exact ⟨rfl, hw'⟩
  · rintro ⟨hhead, htail⟩
    obtain ⟨w', hdrop⟩ := List.head?_eq_some_iff.mp hhead
    rw [hdrop] at htail
    refine ⟨s.takeWhile isspace, w', forall_takeWhile _ _, htail, ?_⟩
    rw [← hdrop, List.takeWhile_append_dropWhile]

instance (s : Bytes) : Decidable (ColonAmongSpaces s) := decidable_of_iff _ colonAmongSpaces_iff.symm

theorem quotedBody_colon {w w' : Bytes} (hw : ∀ c ∈ w, isspace c = true) (hw' : ∀ c ∈ w', isspace c = true) :
    QuotedBody (w ++ ch ':' :: w') := by
  have hspaces {v : Bytes} (hv : ∀ c ∈ v, isspace c = true) : QuotedBody v :=
    .of_plain (fun h => absurd (hv _ h) (by decide)) fun h => absurd (hv _ h) (by decide)
  exact (hspaces hw).append (.byte (by decide) (by decide) (hspaces hw'))

/-- Where a string stands behind the match, its contents have to be a colon. -/
theorem valueAfter_string {s : Bytes} (hs : QuotedBody s) (rest q : Bytes) :
    valueAfter (s ++ ch '"' :: rest) = some q ↔ ColonAmongSpaces s ∧ q = rest := by
  rw [valueAfter_eq_some]
  constructor
  · rintro ⟨w, w', hw, hw', h⟩
    have hsplit : s ++ ch '"' :: rest = (w ++ ch ':' :: w') ++ ch '"' :: q := by simp [h]
    obtain ⟨rfl, rfl⟩ := hs.unique (quotedBody_colon hw hw') hsplit
    exact ⟨⟨w, w', hw, hw', rfl⟩, rfl⟩
  · rintro ⟨⟨w, w', hw, hw', rfl⟩, rfl⟩
    exact ⟨w, w', hw, hw', by simp⟩

/-- **The search, string by string.** -/
theorem searchValue_quotedText {k s gap : Bytes} (hk : PlainWord k) (hs : QuotedBody s) (hgap : ch '"' ∉ gap)
    (ts : List (Bytes × Bytes)) :
    searchValue k (quotedText ((s, gap) :: ts))
      = if EndsInQuoted k s then valueAfter (gap ++ quotedText ts)
        else if gap = k ∧ ts ≠ [] then valueAfter ((quotedText ts).drop 1)
        else searchValue k (quotedText ts) := by
  rw [searchValue, strstr_quotedText hk hs hgap]
  split
  · rw [Option.bind_some, List.drop_left]
  · split
    · next hstop =>
      obtain ⟨rfl, hts⟩ := hstop
      obtain ⟨⟨s', gap'⟩, ts', rfl⟩ := List.exists_cons_of_ne_nil hts
      have hquoted : ch '"' :: (gap ++ quotedText ((s', gap') :: ts'))
          = quoted gap ++ (s' ++ ch '"' :: (gap' ++ quotedText ts')) := by simp [quoted, quotedText]
      rw [Option.bind_some, hquoted, List.drop_left]
      rfl
    · rfl

namespace Rfc8259

/-! ## An object as strings with gaps -/

theorem Whitespace.isspace (w : Whitespace) : ∀ c ∈ w.text, LibUpdate.isspace c = true := by
  intro c hc
  rcases w.blank c hc with rfl | rfl | rfl | rfl <;> decide

theorem Whitespace.no_quote (w : Whitespace) : ch '"' ∉ w.text := fun h => absurd (w.isspace _ h) (by decide)

theorem Key.plainWord (k : Key) : PlainWord k.text := by
  have hbyte {b : UInt8} (h : b ∈ k.text) : b ≠ ch '"' ∧ b ≠ ch '\\' := by
    obtain ⟨c, hc, hb⟩ := List.mem_flatMap.mp h
    have := (k.unescaped c hc).byte hb
    exact ⟨this.1, this.2.1⟩
  exact ⟨fun h => (hbyte h).1 rfl, fun h => (hbyte h).2 rfl⟩

theorem Key.quotedBody (k : Key) : QuotedBody k.text := .of_plain k.plainWord.quote k.plainWord.backslash

theorem Key.endsInQuoted (k : Key) (word : Bytes) : EndsInQuoted word k.text ↔ k.text = word := by
  rw [endsInQuoted_iff]
  exact or_iff_left fun h => k.plainWord.quote (h.subset List.mem_cons_self)

namespace Member

/-- What stands between the value of `m` and the next key. -/
def comma (m next : Member) : Bytes := m.afterValue.text ++ ch ',' :: next.beforeKey.text

/-- What follows the value of `m`, up to the next quote. -/
def gap (m : Member) (close : Bytes) : List Member → Bytes
  | [] => m.afterValue.text ++ close
  | next :: _ => m.comma next

theorem colon_no_quote (m : Member) : ch '"' ∉ m.colon := by
  have hbefore := m.beforeColon.no_quote
  have hafter := m.afterColon.no_quote
  simp [colon, hbefore, hafter]
  decide

theorem gap_no_quote (m : Member) (o : FlatObject) (ms : List Member) : ch '"' ∉ m.gap o.close ms := by
  have hvalue := m.afterValue.no_quote
  cases ms with
  | nil =>
      have hclose := o.after.no_quote
      simp [gap, FlatObject.close, hvalue, hclose]
      decide
  | cons next ms =>
      have hkey := next.beforeKey.no_quote
      simp [gap, comma, hvalue, hkey]
      decide

theorem valueAfter_gap (m : Member) (o : FlatObject) (ms : List Member) (rest : Bytes) :
    valueAfter (m.gap o.close ms ++ rest) = none := by
  cases ms with
  | nil =>
      rw [gap, FlatObject.close, List.append_assoc]
      exact valueAfter_none m.afterValue.isspace (by decide) (by decide) (o.after.text ++ rest)
  | cons next ms =>
      rw [gap, comma, List.append_assoc]
      exact valueAfter_none m.afterValue.isspace (by decide) (by decide) (next.beforeKey.text ++ rest)

theorem valueAfter_colon (m : Member) (rest : Bytes) : valueAfter (m.colon ++ ch '"' :: rest) = some rest :=
  valueAfter_eq_some.mpr ⟨m.beforeColon.text, m.afterColon.text, m.beforeColon.isspace, m.afterColon.isspace,
    by simp [colon]⟩

end Member

/-- The strings of an object with the gaps behind them; `close` is what follows the last member. -/
def strings (close : Bytes) : List Member → List (Bytes × Bytes)
  | [] => []
  | m :: ms => (m.key.text, m.colon) :: (m.value.text, m.gap close ms) :: strings close ms

theorem tailText_eq (m : Member) (close : Bytes) (ms : List Member) :
    m.afterValue.text ++ tailText close ms = m.gap close ms ++ quotedText (strings close ms) := by
  induction ms generalizing m with
  | nil => simp [tailText, Member.gap, strings, quotedText]
  | cons next ms ih =>
      have := ih next
      simp only [tailText, Member.gap, Member.comma, Member.text, strings, quotedText, List.append_assoc,
        List.cons_append, this]

theorem memberText_eq (m : Member) (close : Bytes) (ms : List Member) :
    m.text ++ tailText close ms = m.beforeKey.text ++ quotedText (strings close (m :: ms)) := by
  have := tailText_eq m close ms
  simp only [Member.text, strings, quotedText, List.append_assoc, List.cons_append, this]

theorem valueFrom_cons (k close : Bytes) (m : Member) (ms : List Member) :
    valueFrom k close (m :: ms)
      = if m.key.text = k then some (m.value.text ++ ch '"' :: (m.gap close ms ++ quotedText (strings close ms)))
        else valueFrom k close ms := by
  rw [valueFrom, tailText_eq]

/-- The lead of an object, up to the first quote, is stepped over. -/
theorem searchValue_object (o : FlatObject) (k : Bytes) :
    searchValue k o.text = searchValue k (quotedText (strings o.close o.members)) := by
  have hbefore := o.before.no_quote
  have hopen := o.afterOpen.no_quote
  have hafter := o.after.no_quote
  obtain ⟨lead, hlead, htext⟩ :
      ∃ lead, ch '"' ∉ lead ∧ o.text = lead ++ quotedText (strings o.close o.members) := by
    rw [FlatObject.text]
    cases hms : o.members with
    | nil =>
        refine ⟨o.before.text ++ ch '{' :: (o.afterOpen.text ++ o.close), ?_, by simp [strings, quotedText]⟩
        simp [FlatObject.close, hbefore, hopen, hafter]
        decide
    | cons m ms =>
        have hkey := m.beforeKey.no_quote
        refine ⟨o.before.text ++ ch '{' :: (o.afterOpen.text ++ m.beforeKey.text), ?_, ?_⟩
        · simp [hbefore, hopen, hkey]
          decide
        · show _ ++ _ :: (_ ++ (m.text ++ tailText o.close ms)) = _
          rw [memberText_eq]
          simp
  rw [searchValue, searchValue, htext, strstr_gap hlead]

/-! ## Which lookups are right -/

def HasKey (k : Bytes) (ms : List Member) : Prop := ∃ m ∈ ms, m.key.text = k

/-- The search for `k` comes to the value of the member `k`, or to nothing where there is none.
    It goes through the strings in order and passes over those that do not concern it. It stops at the key,
    which is right. It may stop before: at a string and a gap that are spelled like the end of the one and
    the beginning of the next, or at a value. Then it misses a key that comes later; where none comes, it is
    still right as long as no colon follows. -/
def Findable (k : Bytes) : List Member → Prop
  | [] => True
  | m :: ms =>
      if m.key.text = k then True
      else if m.colon = k then ¬ HasKey k ms ∧ ¬ ColonAmongSpaces m.value.text
      else if EndsInQuoted k m.value.text then ¬ HasKey k ms
      else
        match ms with
        | [] => True
        | next :: _ =>
            if m.comma next = k then ¬ HasKey k ms ∧ ¬ ColonAmongSpaces next.key.text else Findable k ms

instance (k : Bytes) (ms : List Member) : Decidable (HasKey k ms) := inferInstanceAs (Decidable (∃ m ∈ ms, _))

instance decidableFindable (k : Bytes) : (ms : List Member) → Decidable (Findable k ms)
  | [] => .isTrue trivial
  | [m] => inferInstanceAs (Decidable (if m.key.text = k then True
      else if m.colon = k then ¬ HasKey k [] ∧ ¬ ColonAmongSpaces m.value.text
      else if EndsInQuoted k m.value.text then ¬ HasKey k [] else True))
  | m :: next :: ms =>
      have := decidableFindable k (next :: ms)
      inferInstanceAs (Decidable (if m.key.text = k then True
        else if m.colon = k then ¬ HasKey k (next :: ms) ∧ ¬ ColonAmongSpaces m.value.text
        else if EndsInQuoted k m.value.text then ¬ HasKey k (next :: ms)
        else if m.comma next = k then ¬ HasKey k (next :: ms) ∧ ¬ ColonAmongSpaces next.key.text
        else Findable k (next :: ms)))

theorem hasKey_cons {k : Bytes} {m : Member} {ms : List Member} :
    HasKey k (m :: ms) ↔ m.key.text = k ∨ HasKey k ms := by
  simp [HasKey]

theorem valueFrom_isSome (close : Bytes) {k : Bytes} {ms : List Member} :
    (valueFrom k close ms).isSome ↔ HasKey k ms := by
  induction ms with
  | nil => simp [valueFrom, HasKey]
  | cons m ms ih =>
      rw [hasKey_cons, valueFrom]
      split
      · next h => simp [h]
      · next h => simp [h, ih]

/-- The value of a member begins behind the opening quote of a value. -/
theorem valueFrom_length {k close v : Bytes} {m : Member} {ms : List Member}
    (h : valueFrom k close (m :: ms) = some v) :
    v.length < (quotedText ((m.value.text, m.gap close ms) :: strings close ms)).length := by
  induction ms generalizing m with
  | nil =>
      rw [valueFrom_cons] at h
      split at h
      · cases h
        simp [quotedText]
      · cases h
  | cons next ms ih =>
      rw [valueFrom_cons] at h
      split at h
      · cases h
        simp [quotedText]
      · have hnext := ih h
        have hgrow : (quotedText ((next.value.text, next.gap close ms) :: strings close ms)).length
            < (quotedText ((m.value.text, m.gap close (next :: ms)) :: strings close (next :: ms))).length := by
          simp only [strings, quotedText, List.length_cons, List.length_append]
          omega
        omega

/-- A match that is followed by a string `s` gives what a parser gives where that is nothing. -/
theorem stray_eq_iff {k close s rest : Bytes} {ms : List Member} (hs : QuotedBody s)
    (hlong : ∀ v, valueFrom k close ms = some v → v.length < rest.length) :
    valueAfter (s ++ ch '"' :: rest) = valueFrom k close ms ↔ ¬ HasKey k ms ∧ ¬ ColonAmongSpaces s := by
  cases hv : valueFrom k close ms with
  | none =>
      have hno : ¬ HasKey k ms := by
        rw [← valueFrom_isSome close, hv]
        exact Bool.false_ne_true
      rw [Option.eq_none_iff_forall_ne_some]
      constructor
      · intro h
        exact ⟨hno, fun hcolon => h rest ((valueAfter_string hs rest rest).mpr ⟨hcolon, rfl⟩)⟩
      · rintro ⟨_, hcolon⟩ q hq
        exact hcolon ((valueAfter_string hs rest q).mp hq).1
  | some v =>
      have hyes : HasKey k ms := by
        rw [← valueFrom_isSome close, hv]
        rfl
      constructor
      · intro h
        obtain ⟨_, rfl⟩ := (valueAfter_string hs rest v).mp h
        exact absurd (hlong _ hv) (Nat.lt_irrefl _)
      · rintro ⟨hno, _⟩
        exact absurd hyes hno

/-- **The lookup, member by member.** -/
theorem searchValue_strings_iff {k : Bytes} (hk : PlainWord k) (o : FlatObject) (ms : List Member) :
    searchValue k (quotedText (strings o.close ms)) = valueFrom k o.close ms ↔ Findable k ms := by
  induction ms with
  | nil => simp [strings, quotedText, searchValue, strstr, quoted, valueFrom, Findable]
  | cons m ms ih =>
      rw [strings, searchValue_quotedText hk m.key.quotedBody m.colon_no_quote, valueFrom_cons, Findable.eq_def]
      simp only [m.key.endsInQuoted]
      by_cases hkey : m.key.text = k
      · simp only [if_pos hkey]
        rw [quotedText, m.valueAfter_colon]
        simp
      rw [if_neg hkey, if_neg hkey, if_neg hkey]
      by_cases hcolon : m.colon = k
      · rw [if_pos ⟨hcolon, List.cons_ne_nil _ _⟩, if_pos hcolon]
        refine stray_eq_iff m.value.quotedBody fun v hv => ?_
        cases ms with
        | nil => cases hv
        | cons next ms =>
            have := valueFrom_length hv
            simp only [strings, quotedText, List.length_append, List.length_cons] at this ⊢
            omega
      rw [if_neg fun h => hcolon h.1, if_neg hcolon,
        searchValue_quotedText hk m.value.quotedBody (m.gap_no_quote o ms)]
      by_cases hend : EndsInQuoted k m.value.text
      · rw [if_pos hend, if_pos hend, m.valueAfter_gap, ← valueFrom_isSome o.close]
        cases valueFrom k o.close ms <;> simp
      rw [if_neg hend, if_neg hend]
      cases ms with
      | nil =>
          rw [if_neg fun h => h.2 rfl]
          exact ih
      | cons next ms =>
          by_cases hcomma : m.comma next = k
          · rw [if_pos ⟨hcomma, List.cons_ne_nil _ _⟩]
            show _ ↔ if m.comma next = k then _ else _
            rw [if_pos hcomma]
            refine stray_eq_iff next.key.quotedBody fun v hv => ?_
            have := valueFrom_length hv
            rw [List.length_append]
            omega
          · rw [if_neg fun h => hcomma h.1]
            show _ ↔ if m.comma next = k then _ else _
            rw [if_neg hcomma, ih]

/-- **Member lookup.** -/
theorem findStringValueStart_flat_iff (o : FlatObject) (k : Key) (hk : k.text.length ≤ 93) :
    findStringValueStart o.text k.text = o.valueStart k.text ↔ Findable k.text o.members := by
  rw [findStringValueStart_eq hk, searchValue_object]
  exact searchValue_strings_iff k.plainWord o o.members

/-- The key of the version, written without escapes. -/
def versionKey : Key := ⟨"version".toList, forall_unescaped (by decide)⟩

/-- A member without white space around its parts. -/
def Member.dense (key : Key) (value : Literal) : Member := ⟨.none, key, .none, .none, value, .none⟩

theorem findStringValueStart_flat_version :
    findStringValueStart (FlatObject.text ⟨.none, .none, [.dense ⟨"channel".toList, forall_unescaped (by decide)⟩ [],
        .dense versionKey [.char '2' (by decide)]], .none⟩) versionKey.text
      = FlatObject.valueStart ⟨.none, .none, [.dense ⟨"channel".toList, forall_unescaped (by decide)⟩ [],
        .dense versionKey [.char '2' (by decide)]], .none⟩ versionKey.text :=
  (findStringValueStart_flat_iff _ versionKey (by decide)).mpr (by decide +kernel)

/-- A channel that is named like the key of the version. -/
def versionChannel : FlatObject :=
  ⟨.none, .none, [.dense ⟨"channel".toList, forall_unescaped (by decide)⟩ versionKey.literal,
    .dense versionKey [.char '2' (by decide)]], .none⟩

/-- The value of the channel hides the version. -/
theorem findStringValueStart_versionChannel :
    versionChannel.text = ascii "\x7b\"channel\":\"version\",\"version\":\"2\"\x7d"
      ∧ versionChannel.valueStart versionKey.text = some (ascii "2\"\x7d")
      ∧ findStringValueStart versionChannel.text versionKey.text = none := by
  refine ⟨by decide +kernel, by decide +kernel, by decide +kernel⟩

end Rfc8259

end LibUpdate
