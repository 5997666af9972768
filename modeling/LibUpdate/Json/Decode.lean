import LibUpdate.JsonMini
import LibUpdate.Json.Grammar

/-!
# `Json.Decode` — what the string decoder makes of a literal (`json_mini.c`)

`parseJsonStringValue_iff` is the decoder's specification: it takes the string up to its closing quote, gives
`jsonDecoded` of it, and fails exactly where there is no closing quote or the result does not fit. The value
that RFC 8259 gives to the literal is compared with that text.
-/

namespace LibUpdate

/-- What the decoder writes for the inside of a string. -/
def jsonDecoded : Bytes → Bytes
  | [] => []
  | [c] => [c]
  | c :: e :: s => if c = ch '\\' then jsonUnescape e :: jsonDecoded s else c :: jsonDecoded (e :: s)

/-- `n` decoded bytes and a NUL fit in the destination, and `n` is within the limit. -/
def DecodedFits (outcap maxDecoded : Option Nat) (n : Nat) : Prop :=
  (∀ cap ∈ outcap, n < cap) ∧ ∀ m ∈ maxDecoded, n ≤ m

theorem jsonDecoded_cons {c : UInt8} (hc : c ≠ ch '\\') (s : Bytes) :
    jsonDecoded (c :: s) = c :: jsonDecoded s := by
  cases s with
  | nil => rfl
  | cons e s => rw [jsonDecoded, if_neg hc]

theorem jsonDecoded_escaped (e : UInt8) (s : Bytes) :
    jsonDecoded (ch '\\' :: e :: s) = jsonUnescape e :: jsonDecoded s := by
  rw [jsonDecoded, if_pos rfl]

theorem QuotedBody.jsonDecoded_append {s : Bytes} (hs : QuotedBody s) (t : Bytes) :
    jsonDecoded (s ++ t) = jsonDecoded s ++ jsonDecoded t := by
  induction hs with
  | nil => rfl
  | byte hq hb _ ih => rw [List.cons_append, jsonDecoded_cons hb, jsonDecoded_cons hb, ih, List.cons_append]
  | escaped c _ ih =>
      rw [List.cons_append, List.cons_append, jsonDecoded_escaped, jsonDecoded_escaped, ih, List.cons_append]

/-! ## The decoder -/

section Decoder

variable {outcap maxDecoded : Option Nat} {i : Nat} {rest : Bytes}

theorem DecodedFits.mono {n m : Nat} (h : DecodedFits outcap maxDecoded n) (hmn : m ≤ n) :
    DecodedFits outcap maxDecoded m :=
  ⟨fun cap hcap => Nat.lt_of_le_of_lt hmn (h.1 cap hcap), fun l hl => Nat.le_trans hmn (h.2 l hl)⟩

theorem jsonRoom_iff : jsonRoom outcap i = true ↔ ∀ cap ∈ outcap, i + 1 < cap := by
  cases outcap with
  | none => simp [jsonRoom]
  | some cap => simp [jsonRoom]

theorem any_ge_iff {o : Option Nat} : (o.any fun m => decide (i ≥ m)) = false ↔ ∀ m ∈ o, i < m := by
  cases o with
  | none => simp
  | some m => simp

/-- One more byte fits. -/
theorem decodedFits_succ :
    DecodedFits outcap maxDecoded (i + 1)
      ↔ (maxDecoded.any fun m => decide (i ≥ m)) = false ∧ jsonRoom outcap i = true := by
  rw [any_ge_iff, jsonRoom_iff]
  exact and_comm

theorem parseJsonStringValue_quote :
    parseJsonStringValue outcap maxDecoded i (ch '"' :: rest)
      = if outcap.any (fun cap => decide (i ≥ cap)) then none else some ([], ch '"' :: rest) := by
  rw [parseJsonStringValue.eq_def]
  simp

/-- A pass of the decoder over a byte that stands for itself. -/
theorem parseJsonStringValue_byte {c : UInt8} (hq : c ≠ ch '"') (hb : c ≠ ch '\\')
    (hfits : DecodedFits outcap maxDecoded (i + 1)) :
    parseJsonStringValue outcap maxDecoded i (c :: rest)
      = (parseJsonStringValue outcap maxDecoded (i + 1) rest).map fun (s, endp) => (c :: s, endp) := by
  obtain ⟨hmax, hroom⟩ := decodedFits_succ.mp hfits
  rw [parseJsonStringValue.eq_def]
  simp [hq, hb, hmax, hroom]

/-- A pass over an escaped byte. -/
theorem parseJsonStringValue_escaped {e : UInt8} (hfits : DecodedFits outcap maxDecoded (i + 1)) :
    parseJsonStringValue outcap maxDecoded i (ch '\\' :: e :: rest)
      = (parseJsonStringValue outcap maxDecoded (i + 1) rest).map fun (s, endp) => (jsonUnescape e :: s, endp) := by
  obtain ⟨hmax, hroom⟩ := decodedFits_succ.mp hfits
  have hne : (ch '\\' == ch '"') = false := by decide
  rw [parseJsonStringValue]
  simp [hne, hmax, hroom]

/-- The decoder takes a string whose decoded bytes fit. -/
theorem QuotedBody.parse {s : Bytes} (hs : QuotedBody s)
    (hfits : DecodedFits outcap maxDecoded (i + (jsonDecoded s).length)) (hroom : ∀ cap ∈ outcap, i < cap) :
    parseJsonStringValue outcap maxDecoded i (s ++ ch '"' :: rest) = some (jsonDecoded s, ch '"' :: rest) := by
  induction hs generalizing i with
  | nil => rw [List.nil_append, parseJsonStringValue_quote, any_ge_iff.mpr hroom, if_neg (by simp), jsonDecoded]
  | byte hq hb _ ih =>
      rw [jsonDecoded_cons hb, List.length_cons] at hfits
      have hnext := hfits.mono (show i + 1 ≤ _ by omega)
      rw [List.cons_append, parseJsonStringValue_byte hq hb hnext, ih (hfits.mono (by omega)) hnext.1,
        jsonDecoded_cons hb]
      rfl
  | escaped e _ ih =>
      rw [jsonDecoded_escaped, List.length_cons] at hfits
      have hnext := hfits.mono (show i + 1 ≤ _ by omega)
      rw [List.cons_append, List.cons_append, parseJsonStringValue_escaped hnext,
        ih (hfits.mono (by omega)) hnext.1,
        jsonDecoded_escaped]
      rfl

/-- A byte in front of a text that keeps the limits keeps them, where the test for it was passed. -/
theorem limits_cons {c : UInt8} {d : Bytes} (hmax : ¬ (maxDecoded.any fun m => decide (i ≥ m)) = true)
    (hcap : ∀ cap ∈ outcap, i + 1 + d.length < cap) (hlim : ∀ m ∈ maxDecoded, d ≠ [] → i + 1 + d.length ≤ m) :
    (∀ cap ∈ outcap, i + (c :: d).length < cap) ∧ ∀ m ∈ maxDecoded, c :: d ≠ [] → i + (c :: d).length ≤ m := by
  rw [List.length_cons]
  constructor
  · intro cap hmem
    have hlt := hcap cap hmem
    omega
  · intro m hm _
    by_cases hnil : d = []
    · rw [hnil]
      exact any_ge_iff.mp (Bool.not_eq_true _ ▸ hmax) m hm
    · have hle := hlim m hm hnil
      omega

/-- What the decoder takes is a string up to its closing quote. -/
theorem parseJsonStringValue_eq_some {p d e : Bytes}
    (h : parseJsonStringValue outcap maxDecoded i p = some (d, e)) :
    ∃ s rest, QuotedBody s ∧ p = s ++ ch '"' :: rest ∧ d = jsonDecoded s ∧ e = ch '"' :: rest
      ∧ (∀ cap ∈ outcap, i + d.length < cap) ∧ ∀ m ∈ maxDecoded, d ≠ [] → i + d.length ≤ m := by
  fun_induction parseJsonStringValue outcap maxDecoded i p generalizing d with
  | case1 => cases h
  | case2 => cases h
  | case3 i c cs hquote hcap =>
      cases h
      rw [eq_of_beq hquote]
      refine ⟨[], cs, .nil, rfl, rfl, rfl, ?_, fun _ _ hne => absurd rfl hne⟩
      rw [List.length_nil, Nat.add_zero]
      exact any_ge_iff.mp (Bool.not_eq_true _ ▸ hcap)
  | case4 => cases h
  | case5 => cases h
  | case6 i c hquote hmax hback e rest hroom ih =>
      obtain ⟨⟨d', e'⟩, hrec, heq⟩ := Option.map_eq_some_iff.mp h
      cases heq
      obtain ⟨s, rest', hs, hp, hd, he, hcap, hlim⟩ := ih hrec
      refine ⟨ch '\\' :: e :: s, rest', .escaped e hs, ?_, ?_, he, limits_cons hmax hcap hlim⟩
      · rw [eq_of_beq hback, hp]
        rfl
      · rw [jsonDecoded_escaped, hd]
  | case7 => cases h
  | case8 i c cs hquote hmax hback hroom ih =>
      obtain ⟨⟨d', e'⟩, hrec, heq⟩ := Option.map_eq_some_iff.mp h
      cases heq
      obtain ⟨s, rest', hs, hp, hd, he, hcap, hlim⟩ := ih hrec
      have hq : c ≠ ch '"' := fun hc => hquote (by rw [hc]; exact beq_self_eq_true _)
      have hb : c ≠ ch '\\' := fun hc => hback (by rw [hc]; exact beq_self_eq_true _)
      refine ⟨c :: s, rest', .byte hq hb hs, ?_, ?_, he, limits_cons hmax hcap hlim⟩
      · rw [hp]
        rfl
      · rw [jsonDecoded_cons hb, hd]
  | case9 => cases h

/-- **The decoder.** It gives the decoded bytes of the string at `p` and the place of the closing quote,
    where there is one and the bytes fit. -/
theorem parseJsonStringValue_iff {p d e : Bytes} :
    parseJsonStringValue outcap maxDecoded 0 p = some (d, e)
      ↔ ∃ s rest, QuotedBody s ∧ p = s ++ ch '"' :: rest ∧ d = jsonDecoded s ∧ e = ch '"' :: rest
        ∧ DecodedFits outcap maxDecoded d.length := by
  constructor
  · intro h
    obtain ⟨s, rest, hs, hp, hd, he, hcap, hlim⟩ := parseJsonStringValue_eq_some h
    refine ⟨s, rest, hs, hp, hd, he, fun cap hmem => by simpa using hcap cap hmem, fun m hm => ?_⟩
    by_cases hnil : d = []
    · rw [hnil]
      exact Nat.zero_le m
    · simpa using hlim m hm hnil
  · rintro ⟨s, rest, hs, rfl, rfl, rfl, hfits⟩
    refine hs.parse ?_ fun cap hcap => Nat.zero_lt_of_lt (hfits.1 cap hcap)
    rwa [Nat.zero_add]

/-- A text holds one string at its beginning. -/
theorem QuotedBody.unique {s s' r r' : Bytes} (hs : QuotedBody s) (hs' : QuotedBody s')
    (h : s ++ ch '"' :: r = s' ++ ch '"' :: r') : s = s' ∧ r = r' := by
  induction hs generalizing s' with
  | nil =>
      cases hs' with
      | nil => exact ⟨rfl, (List.cons.inj h).2⟩
      | byte hq _ _ => exact absurd (List.cons.inj h).1.symm hq
      | escaped c _ => exact absurd (List.cons.inj h).1 (by decide)
  | byte hq hb _ ih =>
      cases hs' with
      | nil => exact absurd (List.cons.inj h).1 hq
      | byte _ _ ht =>
          obtain ⟨rfl, htail⟩ := List.cons.inj h
          obtain ⟨rfl, hr⟩ := ih ht htail
          exact ⟨rfl, hr⟩
      | escaped c _ => exact absurd (List.cons.inj h).1 hb
  | escaped c _ ih =>
      cases hs' with
      | nil => exact absurd (List.cons.inj h).1 (by decide)
      | byte _ hb _ => exact absurd (List.cons.inj h).1.symm hb
      | escaped c' ht =>
          obtain ⟨rfl, htail⟩ := List.cons.inj (List.cons.inj h).2
          obtain ⟨rfl, hr⟩ := ih ht htail
          exact ⟨rfl, hr⟩

end Decoder

/-! ## Literals -/

namespace Rfc8259

/-- What the decoder writes for an item: it does not know `\b`, `\f` and the escapes of code units, and
    drops their backslash. -/
def Item.decoded : Item → Bytes
  | char c _ => String.utf8EncodeChar c
  | escape e => [jsonUnescape e.letter]
  | unit u => ch 'u' :: u.text

/-- The items that the decoder knows. -/
def Item.Known : Item → Prop
  | char _ _ => True
  | escape e => e ≠ .backspace ∧ e ≠ .formFeed
  | unit _ => False

theorem jsonDecoded_plain {s : Bytes} (hs : ch '\\' ∉ s) : jsonDecoded s = s := by
  induction s with
  | nil => rfl
  | cons c s ih =>
      rw [List.mem_cons, not_or] at hs
      rw [jsonDecoded_cons (Ne.symm hs.1), ih hs.2]

theorem Item.jsonDecoded_text (i : Item) : jsonDecoded i.text = i.decoded := by
  cases i with
  | char c h => exact jsonDecoded_plain fun hb => (h.byte hb).2.1 rfl
  | escape e => exact jsonDecoded_escaped e.letter []
  | unit u =>
      have hplain : ch '\\' ∉ u.text := by
        intro h
        simp only [CodeUnit.text, List.mem_cons, List.not_mem_nil, or_false] at h
        rcases h with h | h | h | h <;> exact (HexDigit.text_plain _).2.1 h.symm
      show jsonDecoded (ch '\\' :: ch 'u' :: u.text) = ch 'u' :: u.text
      rw [jsonDecoded_escaped, jsonDecoded_plain hplain]
      rfl

theorem Literal.jsonDecoded_text (l : Literal) : jsonDecoded l.text = l.flatMap Item.decoded := by
  induction l with
  | nil => rfl
  | cons i l ih =>
      show jsonDecoded (i.text ++ Literal.text l) = i.decoded ++ l.flatMap Item.decoded
      rw [i.quotedBody.jsonDecoded_append, i.jsonDecoded_text, ih]

/-- Whether an item is the escape of a code unit. -/
def Item.isUnit : Item → Bool
  | unit _ => true
  | _ => false

theorem Item.length_decoded_unit (u : CodeUnit) : (Item.unit u).decoded.length = 5 := rfl

/-- What the decoder writes for a code unit is longer than what it denotes. -/
theorem Literal.length_value {l : Literal} {cs : List Char} (h : l.value = some cs) :
    (utf8 cs).length + l.countP Item.isUnit ≤ (l.flatMap Item.decoded).length := by
  fun_induction Literal.value l generalizing cs with
  | case1 =>
      cases h
      exact Nat.le_refl 0
  | case2 c hc l ih =>
      obtain ⟨cs', hl, rfl⟩ := Option.map_eq_some_iff.mp h
      have := ih hl
      rw [List.countP_cons_of_neg (show ¬ (Item.char c hc).isUnit = true from Bool.false_ne_true),
        List.flatMap_cons,
        utf8_cons, List.length_append, List.length_append]
      show (String.utf8EncodeChar c).length + _ + _ ≤ (String.utf8EncodeChar c).length + _
      omega
  | case3 e l ih =>
      obtain ⟨cs', hl, rfl⟩ := Option.map_eq_some_iff.mp h
      have := ih hl
      have hone : (String.utf8EncodeChar e.char).length = (Item.escape e).decoded.length := by cases e <;> rfl
      rw [List.countP_cons_of_neg (show ¬ (Item.escape e).isUnit = true from Bool.false_ne_true),
        List.flatMap_cons,
        utf8_cons, List.length_append, List.length_append]
      omega
  | case4 u v l hhigh hlow ih =>
      obtain ⟨cs', hl, rfl⟩ := Option.map_eq_some_iff.mp h
      have := ih hl
      have := length_utf8EncodeChar_le (u.pair v)
      rw [List.countP_cons_of_pos rfl, List.countP_cons_of_pos rfl, List.flatMap_cons, List.flatMap_cons, utf8_cons,
        List.length_append, List.length_append, List.length_append, Item.length_decoded_unit,
        Item.length_decoded_unit]
      omega
  | case5 => cases h
  | case6 => cases h
  | case7 u v l hhigh hlow ih =>
      obtain ⟨cs', hl, rfl⟩ := Option.map_eq_some_iff.mp h
      have := ih hl
      have := length_utf8EncodeChar_le (Char.ofNat u.value)
      rw [List.countP_cons_of_pos rfl, List.flatMap_cons, utf8_cons, List.length_append, List.length_append,
        Item.length_decoded_unit]
      omega
  | case8 => cases h
  | case9 u l hsurr _ ih =>
      obtain ⟨cs', hl, rfl⟩ := Option.map_eq_some_iff.mp h
      have := ih hl
      have := length_utf8EncodeChar_le (Char.ofNat u.value)
      rw [List.countP_cons_of_pos rfl, List.flatMap_cons, utf8_cons, List.length_append, List.length_append,
        Item.length_decoded_unit]
      omega

theorem Escape.unescape_iff (e : Escape) :
    [jsonUnescape e.letter] = String.utf8EncodeChar e.char ↔ e ≠ .backspace ∧ e ≠ .formFeed := by
  cases e <;> decide

/-- Without escapes of code units, the decoder is right exactly where it knows every escape. -/
theorem Literal.decoded_eq_iff {l : Literal} {cs : List Char} (h : l.value = some cs)
    (hunits : ∀ i ∈ l, i.isUnit = false) : l.flatMap Item.decoded = utf8 cs ↔ ∀ i ∈ l, i.Known := by
  induction l generalizing cs with
  | nil =>
      cases h
      simp
  | cons i l ih =>
      have hrest : ∀ j ∈ l, j.isUnit = false := fun j hj => hunits j (List.mem_cons_of_mem i hj)
      cases i with
      | char c hc =>
          rw [Literal.value] at h
          obtain ⟨cs', hl, rfl⟩ := Option.map_eq_some_iff.mp h
          rw [List.flatMap_cons, utf8_cons, List.forall_mem_cons, ← ih hl hrest]
          simp [Item.decoded, Item.Known]
      | escape e =>
          rw [Literal.value] at h
          obtain ⟨cs', hl, rfl⟩ := Option.map_eq_some_iff.mp h
          have hone : (String.utf8EncodeChar e.char).length = [jsonUnescape e.letter].length := by cases e <;> rfl
          rw [List.flatMap_cons, utf8_cons, List.forall_mem_cons, ← ih hl hrest]
          constructor
          · intro heq
            obtain ⟨hhead, htail⟩ := List.append_inj heq hone.symm
            exact ⟨e.unescape_iff.mp hhead, htail⟩
          · rintro ⟨hknown, htail⟩
            rw [htail, ← e.unescape_iff.mpr hknown]
            rfl
      | unit u => exact absurd (hunits _ List.mem_cons_self) (by simp [Item.isUnit])

/-- **The decoder against RFC 8259.** A literal whose value fits the destination is decoded to the UTF-8
    encoding of its value, up to its closing quote, exactly when it has no `\b`, no `\f` and no escape of a
    code unit. -/
theorem parseJsonStringValue_literal_iff (l : Literal) (cs : List Char) (hvalue : l.value = some cs) (cap : Nat)
    (maxDecoded : Option Nat) (hfits : DecodedFits (some cap) maxDecoded (utf8 cs).length) (rest : Bytes) :
    parseJsonStringValue (some cap) maxDecoded 0 (l.text ++ ch '"' :: rest) = some (utf8 cs, ch '"' :: rest)
      ↔ ∀ i ∈ l, i.Known := by
  have hiff : jsonDecoded l.text = utf8 cs ↔ ∀ i ∈ l, i.Known := by
    rw [l.jsonDecoded_text]
    have hlength := Literal.length_value hvalue
    by_cases hunits : ∀ i ∈ l, i.isUnit = false
    · exact Literal.decoded_eq_iff hvalue hunits
    · obtain ⟨i, hi, hunit⟩ : ∃ i ∈ l, i.isUnit = true := by simpa using hunits
      have hcount : 0 < l.countP Item.isUnit := List.countP_pos_iff.mpr ⟨i, hi, hunit⟩
      constructor
      · intro heq
        rw [heq] at hlength
        omega
      · intro hknown
        cases i with
        | char c hc => cases hunit
        | escape e => cases hunit
        | unit u => exact (hknown _ hi).elim
  rw [← hiff]
  constructor
  · intro h
    obtain ⟨s, r, hs, hp, hd, _⟩ := parseJsonStringValue_iff.mp h
    obtain ⟨rfl, _⟩ := l.quotedBody.unique hs hp
    exact hd.symm
  · intro heq
    exact parseJsonStringValue_iff.mpr ⟨l.text, rest, l.quotedBody, rfl, heq.symm, rfl, hfits⟩

theorem parseJsonStringValue_literal_newline :
    parseJsonStringValue (some 3) none 0 (Literal.text [.char 'a' (by decide), .escape .lineFeed] ++ [ch '"'])
      = some (utf8 ['a', '\n'], [ch '"']) :=
  (parseJsonStringValue_literal_iff [.char 'a' (by decide), .escape .lineFeed] ['a', '\n'] (by decide) 3 none
    ⟨by decide, by decide⟩ []).mpr (by simp [Item.Known])

/-- `\u003c`, as many encoders write a less-than sign. -/
def lessThan : Literal := [.unit ⟨⟨0, false⟩, ⟨0, false⟩, ⟨3, false⟩, ⟨12, false⟩⟩]

/-- The escape of a less-than sign is passed through without its backslash, and no error is reported. -/
theorem parseJsonStringValue_lessThan :
    lessThan.text = ascii "\\u003c" ∧ lessThan.value = some ['<'] ∧ DecodedFits (some 16) none (utf8 ['<']).length
      ∧ parseJsonStringValue (some 16) none 0 (lessThan.text ++ [ch '"']) = some (ascii "u003c", [ch '"'])
      ∧ parseJsonStringValue (some 16) none 0 (lessThan.text ++ [ch '"']) ≠ some (utf8 ['<'], [ch '"']) := by
  refine ⟨by decide, by decide, ⟨by decide, by decide⟩, by decide, by decide⟩

end Rfc8259

end LibUpdate
