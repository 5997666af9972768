import LibUpdate.Foundation.Quoted

/-!
# `Json.Grammar` — string literals and flat objects of RFC 8259

A literal is the list of what stands between its quotes: characters as they are, two-character escapes, and
escapes of a UTF-16 code unit. Its value is the text it denotes; a surrogate without its partner denotes
nothing. An object is flat when its members are strings.
-/

namespace LibUpdate.Rfc8259

/-! ## Literals -/

/-- `unescaped = %x20-21 / %x23-5B / %x5D-10FFFF`. -/
def Unescaped (c : Char) : Prop := 0x20 ≤ c.val.toNat ∧ c ≠ '"' ∧ c ≠ '\\'

instance (c : Char) : Decidable (Unescaped c) := inferInstanceAs (Decidable (_ ∧ _))

/-- The two-character escapes. -/
inductive Escape where
  | quotationMark
  | reverseSolidus
  | solidus
  | backspace
  | formFeed
  | lineFeed
  | carriageReturn
  | tab
  deriving DecidableEq, Repr

/-- What stands behind the backslash. -/
def Escape.letter : Escape → UInt8
  | quotationMark => ch '"'
  | reverseSolidus => ch '\\'
  | solidus => ch '/'
  | backspace => ch 'b'
  | formFeed => ch 'f'
  | lineFeed => ch 'n'
  | carriageReturn => ch 'r'
  | tab => ch 't'

/-- The character the escape denotes. -/
def Escape.char : Escape → Char
  | quotationMark => '"'
  | reverseSolidus => '\\'
  | solidus => '/'
  | backspace => Char.ofNat 0x08
  | formFeed => Char.ofNat 0x0c
  | lineFeed => '\n'
  | carriageReturn => '\r'
  | tab => '\t'

/-- A hexadecimal digit in either case. -/
structure HexDigit where
  value : Fin 16
  upper : Bool
  deriving DecidableEq, Repr

def HexDigit.text (d : HexDigit) : UInt8 :=
  if d.value.val < 10 then ch '0' + UInt8.ofNat d.value.val
  else (if d.upper then ch 'A' else ch 'a') + UInt8.ofNat (d.value.val - 10)

/-- `4HEXDIG`: a UTF-16 code unit. -/
structure CodeUnit where
  d₁ : HexDigit
  d₂ : HexDigit
  d₃ : HexDigit
  d₄ : HexDigit
  deriving DecidableEq, Repr

namespace CodeUnit

def value (u : CodeUnit) : Nat :=
  ((u.d₁.value.val * 16 + u.d₂.value.val) * 16 + u.d₃.value.val) * 16 + u.d₄.value.val

def text (u : CodeUnit) : Bytes := [u.d₁.text, u.d₂.text, u.d₃.text, u.d₄.text]

def IsHigh (u : CodeUnit) : Prop := 0xD800 ≤ u.value ∧ u.value ≤ 0xDBFF

def IsLow (u : CodeUnit) : Prop := 0xDC00 ≤ u.value ∧ u.value ≤ 0xDFFF

instance (u : CodeUnit) : Decidable u.IsHigh := inferInstanceAs (Decidable (_ ∧ _))

instance (u : CodeUnit) : Decidable u.IsLow := inferInstanceAs (Decidable (_ ∧ _))

/-- The character of a surrogate pair. -/
def pair (high low : CodeUnit) : Char := Char.ofNat (0x10000 + (high.value - 0xD800) * 0x400 + (low.value - 0xDC00))

end CodeUnit

inductive Item where
  | char (c : Char) (h : Unescaped c)
  | escape (e : Escape)
  | unit (u : CodeUnit)
  deriving DecidableEq

def Item.text : Item → Bytes
  | char c _ => String.utf8EncodeChar c
  | escape e => [ch '\\', e.letter]
  | unit u => ch '\\' :: ch 'u' :: u.text

/-- What stands between the quotes of a string. -/
abbrev Literal := List Item

namespace Literal

def text (l : Literal) : Bytes := l.flatMap Item.text

/-- The characters that a literal denotes. -/
def value : Literal → Option (List Char)
  | [] => some []
  | .char c _ :: l => (value l).map fun cs => c :: cs
  | .escape e :: l => (value l).map fun cs => e.char :: cs
  | .unit u :: .unit v :: l =>
      if u.IsHigh then
        if v.IsLow then (value l).map fun cs => u.pair v :: cs else none
      else if u.IsLow then none
      else (value (.unit v :: l)).map fun cs => Char.ofNat u.value :: cs
  | .unit u :: l =>
      if u.IsHigh ∨ u.IsLow then none else (value l).map fun cs => Char.ofNat u.value :: cs

end Literal

/-- The UTF-8 encoding of a text. -/
def utf8 (cs : List Char) : Bytes := cs.flatMap String.utf8EncodeChar

@[simp] theorem utf8_nil : utf8 [] = [] := rfl

@[simp] theorem utf8_cons (c : Char) (cs : List Char) : utf8 (c :: cs) = String.utf8EncodeChar c ++ utf8 cs := rfl

example : Literal.value [.unit ⟨⟨13, false⟩, ⟨8, false⟩, ⟨3, false⟩, ⟨4, false⟩⟩,
    .unit ⟨⟨13, true⟩, ⟨13, false⟩, ⟨1, false⟩, ⟨14, true⟩⟩, .escape .lineFeed]
      = some [Char.ofNat 0x1D11E, '\n'] := by decide

/-! ## What the text of a literal looks like -/

/-- The bytes of a character are those of an ASCII character or lie above ASCII. -/
theorem mem_utf8EncodeChar {c : Char} {b : UInt8} (h : b ∈ String.utf8EncodeChar c) :
    (c.val.toNat < 128 ∧ b.toNat = c.val.toNat) ∨ 128 ≤ b.toNat := by
  simp only [String.utf8EncodeChar] at h
  split at h
  · next hsmall =>
    rw [List.mem_singleton.mp h]
    refine Or.inl ⟨by omega, ?_⟩
    rw [UInt8.toNat_ofNat']
    omega
  · right
    split at h
    · simp only [List.mem_cons, List.not_mem_nil, or_false] at h
      rcases h with rfl | rfl <;> rw [UInt8.toNat_ofNat'] <;> omega
    · split at h
      · simp only [List.mem_cons, List.not_mem_nil, or_false] at h
        rcases h with rfl | rfl | rfl <;> rw [UInt8.toNat_ofNat'] <;> omega
      · simp only [List.mem_cons, List.not_mem_nil, or_false] at h
        rcases h with rfl | rfl | rfl | rfl <;> rw [UInt8.toNat_ofNat'] <;> omega

theorem length_utf8EncodeChar_le (c : Char) : (String.utf8EncodeChar c).length ≤ 4 := by
  simp only [String.utf8EncodeChar]
  split
  · exact Nat.le_of_ble_eq_true rfl
  · split
    · exact Nat.le_of_ble_eq_true rfl
    · split <;> exact Nat.le_of_ble_eq_true rfl

/-- No byte of an unescaped character ends a literal, begins an escape or is a NUL. -/
theorem Unescaped.byte {c : Char} (hc : Unescaped c) {b : UInt8} (h : b ∈ String.utf8EncodeChar c) :
    b ≠ ch '"' ∧ b ≠ ch '\\' ∧ 0x20 ≤ b.toNat := by
  obtain ⟨hlow, hquote, hback⟩ := hc
  rcases mem_utf8EncodeChar h with ⟨_, heq⟩ | hhigh
  · have hother (d : Char) (hcd : c ≠ d) : b.toNat ≠ d.val.toNat := by
      intro hd
      exact hcd (Char.ext (UInt32.toNat_inj.mp (heq.symm.trans hd)))
    refine ⟨?_, ?_, by omega⟩
    · rintro rfl
      exact hother '"' hquote rfl
    · rintro rfl
      exact hother '\\' hback rfl
  · refine ⟨?_, ?_, by omega⟩
    · rintro rfl
      exact absurd hhigh (by decide)
    · rintro rfl
      exact absurd hhigh (by decide)

theorem HexDigit.text_plain (d : HexDigit) : d.text ≠ ch '"' ∧ d.text ≠ ch '\\' ∧ 0x20 ≤ d.text.toNat := by
  obtain ⟨value, upper⟩ := d
  revert value upper
  decide

theorem Item.quotedBody (i : Item) : QuotedBody i.text := by
  cases i with
  | char c h => exact .of_plain (fun hq => (h.byte hq).1 rfl) fun hb => (h.byte hb).2.1 rfl
  | escape e => exact .escaped e.letter .nil
  | unit u =>
      refine .escaped (ch 'u') (.of_plain ?_ ?_)
      · intro h
        simp only [CodeUnit.text, List.mem_cons, List.not_mem_nil, or_false] at h
        rcases h with h | h | h | h <;> exact (HexDigit.text_plain _).1 h.symm
      · intro h
        simp only [CodeUnit.text, List.mem_cons, List.not_mem_nil, or_false] at h
        rcases h with h | h | h | h <;> exact (HexDigit.text_plain _).2.1 h.symm

theorem Literal.quotedBody (l : Literal) : QuotedBody l.text := .flatMap Item.quotedBody l

/-! ## Flat objects -/

/-- `ws`. -/
structure Whitespace where
  text : Bytes
  blank : ∀ c ∈ text, c = ch ' ' ∨ c = ch '\t' ∨ c = ch '\n' ∨ c = ch '\r'

def Whitespace.none : Whitespace := ⟨[], fun _ h => absurd h List.not_mem_nil⟩

theorem forall_unescaped {cs : List Char} (h : cs.all fun c => decide (Unescaped c)) : ∀ c ∈ cs, Unescaped c := by
  intro c hc
  exact of_decide_eq_true (List.all_eq_true.mp h c hc)

/-- A key that is written without escapes. -/
structure Key where
  chars : List Char
  unescaped : ∀ c ∈ chars, Unescaped c

def Key.text (k : Key) : Bytes := utf8 k.chars

/-- The literal that is written like the key. -/
def Key.literal (k : Key) : Literal := k.chars.pmap Item.char k.unescaped

/-- A member with the white space around its parts. -/
structure Member where
  beforeKey : Whitespace
  key : Key
  beforeColon : Whitespace
  afterColon : Whitespace
  value : Literal
  afterValue : Whitespace

namespace Member

/-- What stands between the key and the value. -/
def colon (m : Member) : Bytes := m.beforeColon.text ++ ch ':' :: m.afterColon.text

def text (m : Member) : Bytes :=
  m.beforeKey.text ++ ch '"' :: (m.key.text ++ ch '"' :: (m.colon ++ ch '"' :: (m.value.text ++ ch '"' ::
    m.afterValue.text)))

end Member

/-- What follows a member: the members `ms`, each after a comma, and `close`. -/
def tailText (close : Bytes) : List Member → Bytes
  | [] => close
  | m :: ms => ch ',' :: (m.text ++ tailText close ms)

structure FlatObject where
  before : Whitespace
  afterOpen : Whitespace
  members : List Member
  after : Whitespace

namespace FlatObject

/-- What follows the last member. -/
def close (o : FlatObject) : Bytes := ch '}' :: o.after.text

def text (o : FlatObject) : Bytes :=
  o.before.text ++ ch '{' :: (o.afterOpen.text ++
    match o.members with
    | [] => o.close
    | m :: ms => m.text ++ tailText o.close ms)

end FlatObject

/-- The text from the first character of the value of the member `k` on. -/
def valueFrom (k close : Bytes) : List Member → Option Bytes
  | [] => none
  | m :: ms =>
      if m.key.text = k then some (m.value.text ++ ch '"' :: (m.afterValue.text ++ tailText close ms))
      else valueFrom k close ms

def FlatObject.valueStart (o : FlatObject) (k : Bytes) : Option Bytes := valueFrom k o.close o.members

end LibUpdate.Rfc8259
