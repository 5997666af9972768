import LibUpdate.Foundation.Bytes

/-!
# `Foundation.Numeral` — numbers written in digits, and the C functions that read them

`strtoull` and `atoi` read the digits at the front of a text. What they make of a numeral that does not fit
differs: `strtoull` stops at the largest number of 64 bits, `atoi` cuts what `strtol` gives to 32 bits.
-/

namespace LibUpdate

/-- The value of a digit or letter, as `strtoull` counts them. -/
def digitValue (c : UInt8) : Option Nat :=
  if ch '0' ≤ c ∧ c ≤ ch '9' then some (c - ch '0').toNat
  else if ch 'a' ≤ c ∧ c ≤ ch 'z' then some ((c - ch 'a').toNat + 10)
  else if ch 'A' ≤ c ∧ c ≤ ch 'Z' then some ((c - ch 'A').toNat + 10)
  else none

def isDigitOf (base : Nat) (c : UInt8) : Bool := (digitValue c).any (· < base)

/-- The number that digits write. -/
def digitsValue (base : Nat) (digits : Bytes) : Nat :=
  digits.foldl (fun acc c => acc * base + (digitValue c).getD 0) 0

/-- Steps over `0x` where a hexadecimal digit follows. -/
def skipHexPrefix (s : Bytes) : Bytes :=
  match s with
  | z :: x :: d :: rest =>
      if z == ch '0' && (x == ch 'x' || x == ch 'X') && isDigitOf 16 d then d :: rest else s
  | _ => s

/-- `strtoull(s, NULL, base)` for base 10 or 16: optional white space and sign, then digits; what does not
    fit in 64 bits is `ULLONG_MAX`, and a minus sign negates in 64 bits. -/
def strtoull (base : Nat) (s : Bytes) : Nat :=
  let s := (cstr s).dropWhile isspace
  let negative := s.head? == some (ch '-')
  let s := if negative || s.head? == some (ch '+') then s.drop 1 else s
  let s := if base == 16 then skipHexPrefix s else s
  let v := digitsValue base (s.takeWhile (isDigitOf base))
  if v ≥ UInt64.size then UInt64.size - 1
  else if negative then (UInt64.size - v) % UInt64.size
  else v

/-! ## Digits are read as the number they write -/

/-- A hexadecimal digit is none of the bytes that `strtoull` or the line reader treats apart. -/
theorem hexDigit_plain {c : UInt8} (h : isDigitOf 16 c = true) :
    c ≠ 0 ∧ isspace c = false ∧ c ≠ ch '-' ∧ c ≠ ch '+' ∧ c ≠ ch 'x' ∧ c ≠ ch 'X' ∧ c ≠ ch '\r' := by
  revert h
  exact forall_byte (P := fun c => isDigitOf 16 c = true → c ≠ 0 ∧ isspace c = false ∧ c ≠ ch '-'
    ∧ c ≠ ch '+' ∧ c ≠ ch 'x' ∧ c ≠ ch 'X' ∧ c ≠ ch '\r') (by decide +kernel) c

/-- Where no `x` follows a first digit there is no prefix to step over. -/
theorem skipHexPrefix_eq {digits rest : Bytes} (hne : digits ≠ []) (hhex : ∀ c ∈ digits, isDigitOf 16 c = true)
    (hrest : ∀ c ∈ rest.head?, c ≠ ch 'x' ∧ c ≠ ch 'X') : skipHexPrefix (digits ++ rest) = digits ++ rest := by
  have hsecond : ∀ z x d more, digits ++ rest = z :: x :: d :: more → x ≠ ch 'x' ∧ x ≠ ch 'X' := by
    intro z x d more heq
    cases digits with
    | nil => exact absurd rfl hne
    | cons c digits =>
        obtain ⟨_, htail⟩ := List.cons.inj heq
        cases digits with
        | nil =>
            have htail : rest = x :: d :: more := htail
            exact hrest x (by rw [htail]; rfl)
        | cons c' digits =>
            obtain ⟨rfl, _⟩ := List.cons.inj htail
            have hplain := hexDigit_plain (hhex c' (by simp))
            exact ⟨hplain.2.2.2.2.1, hplain.2.2.2.2.2.1⟩
  unfold skipHexPrefix
  split
  · next z x d more heq =>
    obtain ⟨hx, hX⟩ := hsecond z x d more heq
    simp [hx, hX]
  · rfl

/-- A digit of a base up to 16 is a hexadecimal digit. -/
theorem isDigitOf_mono {base : Nat} (hbase : base ≤ 16) {c : UInt8} (h : isDigitOf base c = true) :
    isDigitOf 16 c = true := by
  unfold isDigitOf at h ⊢
  cases hv : digitValue c with
  | none =>
      rw [hv] at h
      cases h
  | some v =>
      rw [hv, Option.any_some, decide_eq_true_eq] at h
      rw [Option.any_some, decide_eq_true_eq]
      omega

/-- At a digit a scan for a number skips no white space and finds no sign. -/
structure AtDigits (s : Bytes) : Prop where
  space : s.dropWhile isspace = s
  minus : (s.head? == some (ch '-')) = false
  plus : (s.head? == some (ch '+')) = false

theorem atDigits_append {base : Nat} (hbase : base ≤ 16) {digits : Bytes} (hne : digits ≠ [])
    (hdigits : ∀ c ∈ digits, isDigitOf base c = true) (rest : Bytes) : AtDigits (digits ++ rest) := by
  obtain ⟨d, ds, rfl⟩ : ∃ d ds, digits = d :: ds := List.exists_cons_of_ne_nil hne
  have hd := hexDigit_plain (isDigitOf_mono hbase (hdigits d List.mem_cons_self))
  refine ⟨dropWhile_eq_self hd.2.1, ?_, ?_⟩
  · simpa using hd.2.2.1
  · simpa using hd.2.2.2.1

/-- `strtoull` on digits and what ends them. -/
theorem strtoull_digits {base : Nat} (hbase : base ≤ 16) {digits rest : Bytes} (hne : digits ≠ [])
    (hdigits : ∀ c ∈ digits, isDigitOf base c = true)
    (hrest : ∀ c ∈ rest.head?, isDigitOf base c = false ∧ c ≠ ch 'x' ∧ c ≠ ch 'X') :
    strtoull base (digits ++ rest)
      = if digitsValue base digits ≥ UInt64.size then UInt64.size - 1 else digitsValue base digits := by
  have hhex : ∀ c ∈ digits, isDigitOf 16 c = true := fun c hc => isDigitOf_mono hbase (hdigits c hc)
  have hcstr : cstr (digits ++ rest) = digits ++ cstr rest :=
    List.takeWhile_append_of_pos fun c hc => by simpa using (hexDigit_plain (hhex c hc)).1
  have hrest' : ∀ c ∈ (cstr rest).head?, isDigitOf base c = false ∧ c ≠ ch 'x' ∧ c ≠ ch 'X' := by
    intro c hc
    cases rest with
    | nil => exact absurd hc (by simp [cstr])
    | cons r rest =>
        by_cases hr : r = 0
        · subst hr
          exact absurd hc (by simp [cstr])
        · rw [cstr_cons hr] at hc
          exact hrest c hc
  have hhead := atDigits_append hbase hne hdigits (cstr rest)
  have hscan : (digits ++ cstr rest).takeWhile (isDigitOf base) = digits := by
    rw [List.takeWhile_append_of_pos hdigits]
    cases hc : cstr rest with
    | nil => simp
    | cons c cs =>
        rw [List.takeWhile_cons_of_neg (by simp [(hrest' c (by rw [hc]; rfl)).1]), List.append_nil]
  have hprefix : (if base == 16 then skipHexPrefix (digits ++ cstr rest) else digits ++ cstr rest)
      = digits ++ cstr rest := by
    split
    · exact skipHexPrefix_eq hne hhex fun c hc => (hrest' c hc).2
    · rfl
  rw [strtoull, hcstr, hhead.space, hhead.minus, hhead.plus]
  simp only [Bool.or_self, Bool.false_eq_true, if_false, hprefix, hscan]

/-! ## Decimal numerals -/

/-- A decimal numeral, of any length and with any leading zeros. -/
structure Decimal where
  digits : Bytes
  nonempty : digits ≠ []
  decimal : ∀ c ∈ digits, isDigitOf 10 c = true

namespace Decimal

/-- The number that a numeral writes. -/
def value (d : Decimal) : Nat := digitsValue 10 d.digits

/-- **`strtoull` at a numeral**: its number, or the largest one of 64 bits. -/
theorem strtoull_digits (d : Decimal) {rest : Bytes}
    (hrest : ∀ c ∈ rest.head?, isDigitOf 10 c = false ∧ c ≠ ch 'x' ∧ c ≠ ch 'X') :
    strtoull 10 (d.digits ++ rest) = if d.value ≥ UInt64.size then UInt64.size - 1 else d.value :=
  LibUpdate.strtoull_digits (by decide) d.nonempty d.decimal hrest

/-- A scan over digits stops behind a numeral. -/
theorem takeWhile_digits (d : Decimal) {rest : Bytes} (hrest : ∀ c ∈ rest.head?, isDigitOf 10 c = false) :
    (d.digits ++ rest).takeWhile (isDigitOf 10) = d.digits := by
  rw [List.takeWhile_append_of_pos d.decimal]
  cases rest with
  | nil => rw [List.takeWhile_nil, List.append_nil]
  | cons c rest => rw [List.takeWhile_cons_of_neg (by simp [hrest c rfl]), List.append_nil]

theorem exists_cons (d : Decimal) : ∃ c cs, d.digits = c :: cs ∧ isDigitOf 10 c = true := by
  obtain ⟨c, cs, hcs⟩ := List.exists_cons_of_ne_nil d.nonempty
  exact ⟨c, cs, hcs, d.decimal c (by rw [hcs]; exact List.mem_cons_self)⟩

theorem atDigits (d : Decimal) (rest : Bytes) : AtDigits (d.digits ++ rest) :=
  atDigits_append (by decide) d.nonempty d.decimal rest

/-- A decimal digit as `atoi` finds and counts it. -/
theorem digit_value (c : UInt8) :
    (decide (ch '0' ≤ c) && decide (c ≤ ch '9')) = isDigitOf 10 c
      ∧ (isDigitOf 10 c = true → (digitValue c).getD 0 = (c - ch '0').toNat) :=
  forall_byte (P := fun c => (decide (ch '0' ≤ c) && decide (c ≤ ch '9')) = isDigitOf 10 c
    ∧ (isDigitOf 10 c = true → (digitValue c).getD 0 = (c - ch '0').toNat)) (by decide +kernel) c

/-- What `atoi` adds up over digits is the number they write. -/
theorem foldl_atoi {ds : Bytes} (hds : ∀ c ∈ ds, isDigitOf 10 c = true) (n : Nat) :
    ds.foldl (fun n c => n * 10 + ((c - ch '0').toNat : Int)) (n : Int)
      = ((ds.foldl (fun n c => n * 10 + (digitValue c).getD 0) n : Nat) : Int) := by
  induction ds generalizing n with
  | nil => rfl
  | cons c ds ih =>
      have hc := (digit_value c).2 (hds c List.mem_cons_self)
      have hstep : (n : Int) * 10 + ((c - ch '0').toNat : Int) = ((n * 10 + (digitValue c).getD 0 : Nat) : Int) := by
        rw [hc]
        simp
      rw [List.foldl_cons, List.foldl_cons, hstep]
      exact ih (fun d hd => hds d (List.mem_cons_of_mem c hd)) _

/-- **`atoi` at a numeral**: its number, up to the largest `long`, cut to 32 bits. -/
theorem atoi_digits (d : Decimal) {rest : Bytes} (hrest : ∀ c ∈ rest.head?, isDigitOf 10 c = false) :
    atoi (d.digits ++ rest) = (min (d.value : Int) 0x7fffffffffffffff).bmod 0x100000000 := by
  have hhead := d.atDigits rest
  have hscan : (d.digits ++ rest).takeWhile (fun c => decide (ch '0' ≤ c) && decide (c ≤ ch '9')) = d.digits := by
    rw [funext fun c => (digit_value c).1]
    exact d.takeWhile_digits hrest
  have hsum : d.digits.foldl (fun n c => n * 10 + ((c - ch '0').toNat : Int)) 0 = (d.value : Int) :=
    foldl_atoi d.decimal 0
  have hlow : max (-0x8000000000000000) (min (d.value : Int) 0x7fffffffffffffff)
      = min (d.value : Int) 0x7fffffffffffffff := by omega
  rw [atoi, hhead.space, hhead.minus, hhead.plus]
  simp only [Bool.or_self, Bool.false_eq_true, if_false, hscan, hsum, hlow]

/-! ### Writing a number -/

theorem digitChar_decimal (n : Nat) (h : n < 10) :
    isDigitOf 10 (ch n.digitChar) = true ∧ (digitValue (ch n.digitChar)).getD 0 = n := by
  have hall : ∀ n < 10, isDigitOf 10 (ch n.digitChar) = true ∧ (digitValue (ch n.digitChar)).getD 0 = n := by
    decide +kernel
  exact hall n h

/-- A number is written in digits, and they say which it is. -/
theorem toDigits_decimal (n : Nat) :
    (∀ c ∈ (Nat.toDigits 10 n).map ch, isDigitOf 10 c = true)
      ∧ digitsValue 10 ((Nat.toDigits 10 n).map ch) = n := by
  induction n using Nat.strongRecOn with
  | ind n ih =>
      by_cases hn : n < 10
      · have hdigit := digitChar_decimal n hn
        rw [Nat.toDigits_of_lt_base hn, List.map_singleton]
        refine ⟨fun c hc => ?_, ?_⟩
        · rw [List.mem_singleton.mp hc]
          exact hdigit.1
        · simp [digitsValue, hdigit.2]
      · -- the last digit behind the number that the others write
        have hlast := digitChar_decimal (n % 10) (Nat.mod_lt n (by decide))
        obtain ⟨hdigits, hvalue⟩ := ih (n / 10) (by omega)
        rw [Nat.toDigits_of_base_le (by decide) (by omega), List.map_append, List.map_singleton]
        refine ⟨fun c hc => ?_, ?_⟩
        · rcases List.mem_append.mp hc with hc | hc
          · exact hdigits c hc
          · rw [List.mem_singleton.mp hc]
            exact hlast.1
        · rw [digitsValue] at hvalue ⊢
          rw [List.foldl_append, hvalue, List.foldl_cons, List.foldl_nil, hlast.2]
          omega

/-- The numeral that writes a number. -/
def ofNat (n : Nat) : Decimal where
  digits := (Nat.toDigits 10 n).map ch
  nonempty := by simp [Nat.toDigits_ne_nil]
  decimal := (toDigits_decimal n).1

theorem value_ofNat (n : Nat) : (ofNat n).value = n := (toDigits_decimal n).2

/-- **`atoi` reads a number back** that fits an `int`. -/
theorem atoi_ofNat {n : Nat} (h : n < 0x80000000) : atoi (ofNat n).digits = n := by
  have hread := @atoi_digits (ofNat n) [] (by simp)
  rw [List.append_nil, value_ofNat] at hread
  rw [hread]
  simp only [Int.bmod]
  omega

end Decimal

end LibUpdate
