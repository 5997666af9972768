import LibUpdate.Json.Extract
import LibUpdate.Json.Lookup

/-!
# `Json.Object` — any JSON object as strings and what stands between them (`json_mini.c`)

The lookup of a key knows nothing of numbers, arrays and nested objects: between two strings it sees bytes without a
quote. So a value is given here by its strings and the tokens around them, which every JSON value has, and a text by
its pieces in order. `lookupAt` says what the lookup finds in the pieces; it goes through them one by one, and what
it finds in a text put together from two is told from the parts.
-/

namespace LibUpdate

namespace Rfc8259

/-! ## Pieces -/

/-- A byte that stands outside the strings of a JSON text. -/
def isTokenByte (c : UInt8) : Bool := isspace c || (ascii "\x7b\x7d[]:,+-.0123456789eEtrufalsn").contains c

/-- A string, or tokens. -/
inductive Piece where
  | string (s : Bytes)
  | tokens (g : Bytes)

def Piece.text : Piece → Bytes
  | string s => ch '"' :: (s ++ [ch '"'])
  | tokens g => g

/-- The string is the inside of one, and tokens are tokens. -/
def Piece.Ok : Piece → Prop
  | string s => QuotedBody s
  | tokens g => ∀ c ∈ g, isTokenByte c = true

def textOf (ps : List Piece) : Bytes := ps.flatMap Piece.text

@[simp] theorem textOf_nil : textOf [] = [] := rfl

@[simp] theorem textOf_string (s : Bytes) (ps : List Piece) :
    textOf (.string s :: ps) = ch '"' :: (s ++ ch '"' :: textOf ps) := by
  simp [textOf, Piece.text]

@[simp] theorem textOf_tokens (g : Bytes) (ps : List Piece) : textOf (.tokens g :: ps) = g ++ textOf ps := by
  simp [textOf, Piece.text]

theorem token_plain {c : UInt8} (h : isTokenByte c = true) : c ≠ ch '"' ∧ c ≠ ch '\\' := by
  revert h
  exact forall_byte (P := fun c => isTokenByte c = true → c ≠ ch '"' ∧ c ≠ ch '\\') (by decide +kernel) c

theorem tokens_no_quote {g : Bytes} (h : ∀ c ∈ g, isTokenByte c = true) : ch '"' ∉ g :=
  fun hq => (token_plain (h _ hq)).1 rfl

theorem tokens_quotedBody {g : Bytes} (h : ∀ c ∈ g, isTokenByte c = true) : QuotedBody g :=
  .of_plain (tokens_no_quote h) fun hb => (token_plain (h _ hb)).2 rfl

/-! ## The lookup in pieces -/

/-- A key that no tokens spell. -/
structure WordKey (k : Bytes) : Prop where
  plain : PlainWord k
  short : k.length ≤ 93
  word : ∃ c ∈ k, isTokenByte c = false

/-- The string that follows, where nothing but a colon among white space stands before it, and what is behind it.
    `g` are the tokens passed so far. -/
def stringAfter (g : Bytes) : List Piece → Option (Bytes × List Piece)
  | [] => none
  | .tokens g' :: ps => stringAfter (g ++ g') ps
  | .string s :: ps => if ColonAmongSpaces g then some (s, ps) else none

/-- The string that the lookup of `k` leads to, and what is behind it. -/
def lookupAt (k : Bytes) : List Piece → Option (Bytes × List Piece)
  | [] => none
  | .tokens _ :: ps => lookupAt k ps
  | .string s :: ps => if EndsInQuoted k s then stringAfter [] ps else lookupAt k ps

/-- The text from the first character of that string on. -/
def textFrom (x : Bytes × List Piece) : Bytes := x.1 ++ ch '"' :: textOf x.2

variable {k : Bytes} {ps : List Piece}

/-- Behind the key, only a string after a colon is a value. -/
theorem valueAfter_textOf {g : Bytes} (hg : ∀ c ∈ g, isTokenByte c = true) (hps : ∀ p ∈ ps, p.Ok) :
    valueAfter (g ++ textOf ps) = (stringAfter g ps).map textFrom := by
  induction ps generalizing g with
  | nil =>
      rw [textOf_nil, List.append_nil, stringAfter, Option.map_none, Option.eq_none_iff_forall_ne_some]
      intro q hq
      obtain ⟨w, w', _, _, rfl⟩ := valueAfter_eq_some.mp hq
      exact tokens_no_quote hg (by simp)
  | cons p ps ih =>
      rw [List.forall_mem_cons] at hps
      obtain ⟨hp, hps⟩ := hps
      cases p with
      | tokens g' =>
          rw [textOf_tokens, ← List.append_assoc, stringAfter]
          exact ih (List.forall_mem_append.mpr ⟨hg, hp⟩) hps
      | string s =>
          have hiff := valueAfter_string (tokens_quotedBody hg) (s ++ ch '"' :: textOf ps)
          rw [textOf_string, stringAfter]
          by_cases hcolon : ColonAmongSpaces g
          · rw [if_pos hcolon]
            exact (hiff _).mpr ⟨hcolon, rfl⟩
          · rw [if_neg hcolon, Option.map_none, Option.eq_none_iff_forall_ne_some]
            intro q hq
            exact hcolon ((hiff q).mp hq).1

/-- Up to the next quote there are tokens, and they are not the key. -/
theorem key_not_ahead (hk : WordKey k) (hps : ∀ p ∈ ps, p.Ok) : ¬ k ++ [ch '"'] <+: textOf ps := by
  have hscan : ∀ (g : Bytes) (qs : List Piece), (∀ c ∈ g, isTokenByte c = true) → (∀ p ∈ qs, p.Ok) →
      ∀ c ∈ (g ++ textOf qs).takeWhile (· != ch '"'), isTokenByte c = true := by
    intro g qs hg hqs
    induction qs generalizing g with
    | nil =>
        intro c hc
        rw [textOf_nil, List.append_nil] at hc
        exact hg c ((List.takeWhile_prefix _).subset hc)
    | cons q qs ih =>
        rw [List.forall_mem_cons] at hqs
        cases q with
        | tokens g' =>
            rw [textOf_tokens, ← List.append_assoc]
            exact ih _ (List.forall_mem_append.mpr ⟨hg, hqs.1⟩) hqs.2
        | string s =>
            have hplain : ∀ c ∈ g, (c != ch '"') = true := fun c hc => by simpa using (token_plain (hg c hc)).1
            rw [textOf_string, List.takeWhile_append_of_pos hplain, List.takeWhile_cons_of_neg (by simp),
              List.append_nil]
            exact hg
  rintro ⟨rest, hrest⟩
  obtain ⟨c, hc, hword⟩ := hk.word
  have hkplain : ∀ c ∈ k, (c != ch '"') = true := by
    intro c hc
    simpa using fun h : c = ch '"' => hk.plain.quote (h ▸ hc)
  have htake : (textOf ps).takeWhile (· != ch '"') = k := by
    rw [← hrest, List.append_assoc, List.takeWhile_append_of_pos hkplain]
    simp
  have htoken := hscan [] ps (by simp) hps c (by rw [List.nil_append, htake]; exact hc)
  rw [hword] at htoken
  cases htoken

/-- **The lookup, piece by piece.** -/
theorem findStringValueStart_textOf (hk : WordKey k) (hps : ∀ p ∈ ps, p.Ok) :
    findStringValueStart (textOf ps) k = (lookupAt k ps).map textFrom := by
  rw [findStringValueStart_eq hk.short]
  induction ps with
  | nil => simp [searchValue, strstr, quoted, lookupAt]
  | cons p ps ih =>
      rw [List.forall_mem_cons] at hps
      obtain ⟨hp, hps⟩ := hps
      cases p with
      | tokens g =>
          rw [textOf_tokens, searchValue, strstr_gap (tokens_no_quote hp), lookupAt]
          exact ih hps
      | string s =>
          rw [textOf_string, searchValue, strstr_string hp hk.plain, lookupAt]
          by_cases hend : EndsInQuoted k s
          · rw [if_pos hend, if_pos hend, Option.bind_some, List.drop_left]
            exact valueAfter_textOf (g := []) (by simp) hps
          · rw [if_neg hend, if_neg hend, strstr_quote (key_not_ahead hk hps)]
            exact ih hps

/-- What the lookup leads to is a whole string. -/
theorem lookupAt_quotedBody (hps : ∀ p ∈ ps, p.Ok) {x : Bytes × List Piece} (h : lookupAt k ps = some x) :
    QuotedBody x.1 := by
  have hafter : ∀ (g : Bytes) (qs : List Piece), (∀ p ∈ qs, p.Ok) → stringAfter g qs = some x → QuotedBody x.1 := by
    intro g qs hqs hx
    induction qs generalizing g with
    | nil => cases hx
    | cons q qs ih =>
        rw [List.forall_mem_cons] at hqs
        cases q with
        | tokens g' => exact ih _ hqs.2 hx
        | string s =>
            rw [stringAfter] at hx
            split at hx
            · cases hx
              exact hqs.1
            · cases hx
  induction ps with
  | nil => cases h
  | cons p ps ih =>
      rw [List.forall_mem_cons] at hps
      cases p with
      | tokens g => exact ih hps.2 h
      | string s =>
          rw [lookupAt] at h
          split at h
          · exact hafter [] ps hps.2 h
          · exact ih hps.2 h

/-- The value of the key is that string, decoded. -/
theorem jsonStringValue_textOf (hk : WordKey k) (hps : ∀ p ∈ ps, p.Ok) :
    jsonStringValue (textOf ps) k = (lookupAt k ps).map fun x => jsonDecoded x.1 := by
  rw [jsonStringValue, findStringValueStart_textOf hk hps]
  cases hx : lookupAt k ps with
  | none => rfl
  | some x =>
      have hbody := lookupAt_quotedBody hps hx
      have hparse : parseJsonStringValue none none 0 (textFrom x) = some (jsonDecoded x.1, ch '"' :: textOf x.2) :=
        parseJsonStringValue_iff.mpr ⟨x.1, textOf x.2, hbody, rfl, rfl, rfl, by simp, by simp⟩
      rw [Option.map_some, Option.bind_some, hparse]
      rfl

/-! ## Texts put together -/

/-- The search for `k` stops in the pieces. -/
def Stops (k : Bytes) (ps : List Piece) : Prop := ∃ s, Piece.string s ∈ ps ∧ EndsInQuoted k s

/-- Tokens that end a value: they are not only a colon among white space, whatever stands around them. -/
def EndsValue (g : Bytes) : Prop := ch ',' ∈ g ∨ ch '}' ∈ g

theorem EndsValue.not_colon {g : Bytes} (h : EndsValue g) : ¬ ColonAmongSpaces g := by
  rintro ⟨w, w', hw, hw', rfl⟩
  have hno : ∀ c, isspace c = false → c ≠ ch ':' → c ∉ w ++ ch ':' :: w' := by
    intro c hspace hc hmem
    rw [List.mem_append, List.mem_cons] at hmem
    rcases hmem with hmem | hmem | hmem
    · rw [hw c hmem] at hspace
      cases hspace
    · exact hc hmem
    · rw [hw' c hmem] at hspace
      cases hspace
  rcases h with h | h
  · exact hno _ (by decide) (by decide) h
  · exact hno _ (by decide) (by decide) h

theorem EndsValue.append {g : Bytes} (h : EndsValue g) (a b : Bytes) : EndsValue (a ++ g ++ b) := by
  rcases h with h | h
  · exact Or.inl (by simp [h])
  · exact Or.inr (by simp [h])

/-- Behind tokens that end a value there is no value. -/
theorem stringAfter_endsValue {g : Bytes} (hg : EndsValue g) (qs : List Piece) : stringAfter g qs = none := by
  induction qs generalizing g with
  | nil => rfl
  | cons q qs ih =>
      cases q with
      | tokens g' =>
          rw [stringAfter]
          exact ih (by simpa using hg.append [] g')
      | string s => rw [stringAfter, if_neg hg.not_colon]

/-- The decoded string that the lookup leads to. -/
def valueIn (k : Bytes) (ps : List Piece) : Option Bytes := (lookupAt k ps).map fun x => jsonDecoded x.1

/-- A search that does not stop in the first part goes on in the second. -/
theorem lookupAt_append_pass (h : ¬ Stops k ps) (qs : List Piece) : lookupAt k (ps ++ qs) = lookupAt k qs := by
  induction ps with
  | nil => rfl
  | cons p ps ih =>
      have hrest : ¬ Stops k ps := fun ⟨s, hs, hend⟩ => h ⟨s, List.mem_cons_of_mem p hs, hend⟩
      cases p with
      | tokens g => exact ih hrest
      | string s =>
          have hend : ¬ EndsInQuoted k s := fun hend => h ⟨s, List.mem_cons_self, hend⟩
          rw [List.cons_append, lookupAt, if_neg hend]
          exact ih hrest

/-- A search that stops in the first part finds what it finds there, where the second part begins by ending a
    value. -/
theorem valueIn_append_stop (h : Stops k ps) {g : Bytes} (hg : EndsValue g) (qs : List Piece) :
    valueIn k (ps ++ .tokens g :: qs) = valueIn k ps := by
  have hafter : ∀ (a : Bytes) (rs : List Piece),
      (stringAfter a (rs ++ .tokens g :: qs)).map (fun x => jsonDecoded x.1)
        = (stringAfter a rs).map fun x => jsonDecoded x.1 := by
    intro a rs
    induction rs generalizing a with
    | nil =>
        have hends : EndsValue (a ++ g) := by simpa using hg.append a []
        show (stringAfter (a ++ g) qs).map _ = none
        rw [stringAfter_endsValue hends]
        rfl
    | cons r rs ih =>
        cases r with
        | tokens g' => exact ih _
        | string s =>
            rw [List.cons_append, stringAfter, stringAfter]
            split
            · rfl
            · rfl
  unfold valueIn
  induction ps with
  | nil =>
      obtain ⟨s, hs, _⟩ := h
      cases hs
  | cons p ps ih =>
      cases p with
      | tokens g' =>
          obtain ⟨s, hs, hend⟩ := h
          rcases List.mem_cons.mp hs with heq | hs
          · cases heq
          · exact ih ⟨s, hs, hend⟩
      | string s =>
          rw [List.cons_append, lookupAt, lookupAt]
          by_cases hend : EndsInQuoted k s
          · rw [if_pos hend, if_pos hend]
            exact hafter [] ps
          · rw [if_neg hend, if_neg hend]
            obtain ⟨s', hs', hend'⟩ := h
            rcases List.mem_cons.mp hs' with heq | hs'
            · cases heq
              exact absurd hend' hend
            · exact ih ⟨s', hs', hend'⟩

/-! ## Objects -/

/-- A value: tokens, and strings with the tokens behind them. Numbers and literal names have no string, a string has
    no tokens around it, an array or an object may have both. -/
structure Value where
  lead : Bytes
  strings : List (Literal × Bytes)
  lead_tokens : ∀ c ∈ lead, isTokenByte c = true
  tokens : ∀ x ∈ strings, ∀ c ∈ x.2, isTokenByte c = true

def Value.pieces (v : Value) : List Piece :=
  .tokens v.lead :: v.strings.flatMap fun x => [.string x.1.text, .tokens x.2]

/-- The value that is a string. -/
def Value.string (l : Literal) : Value := ⟨[], [(l, [])], by simp, by simp⟩

/-- A member of an object, with the white space around its parts. -/
structure Field where
  beforeKey : Whitespace
  key : Literal
  beforeColon : Whitespace
  afterColon : Whitespace
  value : Value
  afterValue : Whitespace

def Field.pieces (f : Field) : List Piece :=
  .tokens f.beforeKey.text :: .string f.key.text :: .tokens (f.beforeColon.text ++ ch ':' :: f.afterColon.text)
    :: (f.value.pieces ++ [.tokens f.afterValue.text])

/-- Members, each behind a comma. -/
def tailPieces : List Field → List Piece
  | [] => []
  | f :: fs => .tokens [ch ','] :: (f.pieces ++ tailPieces fs)

/-- Members with commas between them. -/
def fieldsPieces : List Field → List Piece
  | [] => []
  | f :: fs => f.pieces ++ tailPieces fs

structure Object where
  before : Whitespace
  afterOpen : Whitespace
  fields : List Field
  after : Whitespace

namespace Object

/-- What closes the object. -/
def close (o : Object) : Piece := .tokens (ch '}' :: o.after.text)

def pieces (o : Object) : List Piece :=
  .tokens (o.before.text ++ ch '{' :: o.afterOpen.text) :: (fieldsPieces o.fields ++ [o.close])

/-- The text of the object. -/
def text (o : Object) : Bytes := textOf o.pieces

end Object

theorem Whitespace.tokens (w : Whitespace) : ∀ c ∈ w.text, isTokenByte c = true := by
  intro c hc
  rw [isTokenByte, w.isspace c hc, Bool.true_or]

theorem Value.pieces_ok (v : Value) : ∀ p ∈ v.pieces, p.Ok := by
  rw [pieces, List.forall_mem_cons]
  refine ⟨v.lead_tokens, ?_⟩
  intro p hp
  obtain ⟨x, hx, hp⟩ := List.mem_flatMap.mp hp
  simp only [List.mem_cons, List.not_mem_nil, or_false] at hp
  rcases hp with rfl | rfl
  · exact x.1.quotedBody
  · exact v.tokens x hx

theorem Field.pieces_ok (f : Field) : ∀ p ∈ f.pieces, p.Ok := by
  have hcolon : ∀ c ∈ f.beforeColon.text ++ ch ':' :: f.afterColon.text, isTokenByte c = true := by
    rw [List.forall_mem_append, List.forall_mem_cons]
    exact ⟨f.beforeColon.tokens, by decide, f.afterColon.tokens⟩
  simp only [pieces, List.forall_mem_cons, List.forall_mem_append]
  exact ⟨f.beforeKey.tokens, f.key.quotedBody, hcolon, f.value.pieces_ok, f.afterValue.tokens, by simp⟩

theorem tailPieces_ok (fs : List Field) : ∀ p ∈ tailPieces fs, p.Ok := by
  induction fs with
  | nil => simp [tailPieces]
  | cons f fs ih =>
      rw [tailPieces, List.forall_mem_cons, List.forall_mem_append]
      refine ⟨?_, f.pieces_ok, ih⟩
      intro c hc
      rw [List.mem_singleton.mp hc]
      decide

theorem fieldsPieces_ok (fs : List Field) : ∀ p ∈ fieldsPieces fs, p.Ok := by
  cases fs with
  | nil => simp [fieldsPieces]
  | cons f fs =>
      rw [fieldsPieces, List.forall_mem_append]
      exact ⟨f.pieces_ok, tailPieces_ok fs⟩

namespace Object

theorem pieces_ok (o : Object) : ∀ p ∈ o.pieces, p.Ok := by
  have hopen : ∀ c ∈ o.before.text ++ ch '{' :: o.afterOpen.text, isTokenByte c = true := by
    rw [List.forall_mem_append, List.forall_mem_cons]
    exact ⟨o.before.tokens, by decide, o.afterOpen.tokens⟩
  have hclose : ∀ c ∈ ch '}' :: o.after.text, isTokenByte c = true := by
    rw [List.forall_mem_cons]
    exact ⟨by decide, o.after.tokens⟩
  simp only [pieces, close, List.forall_mem_cons, List.forall_mem_append]
  exact ⟨hopen, fieldsPieces_ok o.fields, hclose, by simp⟩

/-- The value of a key in the text of an object. -/
theorem jsonStringValue_eq (hk : WordKey k) (o : Object) : jsonStringValue o.text k = valueIn k o.pieces :=
  jsonStringValue_textOf hk o.pieces_ok

/-- The key is found where it has a value: no string of an object is without its end. -/
theorem findStringValueStart_eq_none_iff (hk : WordKey k) (o : Object) :
    findStringValueStart o.text k = none ↔ valueIn k o.pieces = none := by
  rw [text, findStringValueStart_textOf hk o.pieces_ok, valueIn, Option.map_eq_none_iff, Option.map_eq_none_iff]

end Object

/-! ## An object with one member more -/

/-- The text behind the members `pre`: the other members and the brace. -/
def behind (o : Object) (post : List Field) : List Piece := tailPieces post ++ [o.close]

theorem fieldsPieces_append {pre : List Field} (hpre : pre ≠ []) (post : List Field) :
    fieldsPieces (pre ++ post) = fieldsPieces pre ++ tailPieces post := by
  have htail : ∀ fs : List Field, tailPieces (fs ++ post) = tailPieces fs ++ tailPieces post := by
    intro fs
    induction fs with
    | nil => rfl
    | cons f fs ih => simp [tailPieces, ih]
  obtain ⟨f, fs, rfl⟩ := List.exists_cons_of_ne_nil hpre
  rw [List.cons_append, fieldsPieces, fieldsPieces, htail, List.append_assoc]

/-- What stands behind members begins by ending a value. -/
theorem behind_eq (o : Object) (post : List Field) :
    ∃ g qs, behind o post = .tokens g :: qs ∧ EndsValue g := by
  cases post with
  | nil => exact ⟨_, _, rfl, Or.inr (by simp)⟩
  | cons f fs => exact ⟨_, _, rfl, Or.inl (by simp)⟩

/-- **The lookup at a place between members.** It finds what it finds in the members before, if it stops there, and
    else what it finds behind them. -/
theorem valueIn_split (o : Object) (pre post : List Field) :
    (Stops k (fieldsPieces pre) →
        valueIn k { o with fields := pre ++ post }.pieces = valueIn k (fieldsPieces pre))
      ∧ (¬ Stops k (fieldsPieces pre) →
        valueIn k { o with fields := pre ++ post }.pieces = valueIn k (behind o post)) := by
  by_cases hpre : pre = []
  · subst hpre
    refine ⟨fun ⟨s, hs, _⟩ => (by cases hs), fun _ => ?_⟩
    cases post with
    | nil => rfl
    | cons f fs => simp [valueIn, Object.pieces, fieldsPieces, behind, tailPieces, lookupAt, Object.close]
  · have hpieces : { o with fields := pre ++ post }.pieces
        = .tokens (o.before.text ++ ch '{' :: o.afterOpen.text) :: (fieldsPieces pre ++ behind o post) := by
      rw [Object.pieces, fieldsPieces_append hpre, behind, List.append_assoc]
      rfl
    have hopen : valueIn k { o with fields := pre ++ post }.pieces = valueIn k (fieldsPieces pre ++ behind o post) := by
      rw [hpieces]
      rfl
    rw [hopen]
    constructor
    · intro hstops
      obtain ⟨g, qs, hbehind, hg⟩ := behind_eq o post
      rw [hbehind]
      exact valueIn_append_stop hstops hg qs
    · intro hpass
      rw [valueIn, lookupAt_append_pass hpass]
      rfl

/-- Behind a place where a member is added, the lookup finds what it finds in that member, if it stops there, and else
    what it found before. -/
theorem valueIn_behind_cons (o : Object) (f : Field) (post : List Field) :
    (Stops k f.pieces → valueIn k (behind o (f :: post)) = valueIn k f.pieces)
      ∧ (¬ Stops k f.pieces → valueIn k (behind o (f :: post)) = valueIn k (behind o post)) := by
  have hcomma : valueIn k (behind o (f :: post)) = valueIn k (f.pieces ++ behind o post) := by
    rw [behind, tailPieces, List.cons_append, List.append_assoc]
    rfl
  rw [hcomma]
  constructor
  · intro hstops
    obtain ⟨g, qs, hbehind, hg⟩ := behind_eq o post
    rw [hbehind]
    exact valueIn_append_stop hstops hg qs
  · intro hpass
    rw [valueIn, lookupAt_append_pass hpass]
    rfl

end Rfc8259

end LibUpdate
