import LibUpdate.Foundation.CommandLine
import LibUpdate.Http.Framing

/-!
# `Http.Fields` — the fields of a header section (`http_transport_socket.c`)

A field is a line with a name, in either case, a colon and a value with blanks around it. `FirstField` says without
the code what the value of a field is, and `header_value_line` finds it where it fits the buffer. From the two fields
that tell where a body ends the readers take what these mark: a list of codings that ends with `chunked`, or a
numeral.
-/

namespace LibUpdate

/-- A field with this name and this value, which is all that follows the blanks behind the colon. -/
def IsField (name value line : Bytes) : Prop :=
  ∃ written blanks, line = written ++ ch ':' :: (blanks ++ value) ∧ written.map tolower = name.map tolower
    ∧ (∀ c ∈ blanks, isBlank c = true) ∧ ∀ c ∈ value.head?, isBlank c = false

/-- No line of the header section is a field of this name. -/
def NoField (h name : Bytes) : Prop := ∀ line ∈ headerLines h, ∀ value, ¬ IsField name value line

/-- The first field of this name has this value. Where a field is written twice, the readers go by the first. -/
def FirstField (h name value : Bytes) : Prop :=
  ∃ before line after, headerLines h = before ++ line :: after ∧ IsField name value line
    ∧ ∀ l ∈ before, ∀ v, ¬ IsField name v l

variable {h name value line : Bytes}

/-! ## A line -/

theorem tolower_colon (c : UInt8) : tolower c = ch ':' ↔ c = ch ':' :=
  forall_byte (P := fun c => tolower c = ch ':' ↔ c = ch ':') (by decide +kernel) c

/-- A name without a colon is written without one. -/
theorem colon_not_mem_written {written : Bytes} (hname : ch ':' ∉ name.map tolower)
    (hwritten : written.map tolower = name.map tolower) : ∀ c ∈ written, (c != ch ':') = true := by
  intro c hc
  rw [bne_iff_ne]
  rintro rfl
  exact hname (hwritten ▸ List.mem_map.mpr ⟨ch ':', hc, (tolower_colon _).mpr rfl⟩)

/-- The lines that begin with the name and a colon are the fields of this name. -/
theorem namesField_iff : namesField (name ++ [ch ':']) line = true ↔ ∃ value, IsField name value line := by
  rw [namesField, Bool.and_eq_true, decide_eq_true_eq, beq_iff_eq, List.length_append, List.length_singleton,
    List.map_append]
  constructor
  · rintro ⟨hlen, htake⟩
    obtain ⟨c, rest, hdrop⟩ : ∃ c rest, line.drop name.length = c :: rest := by
      refine List.exists_cons_of_ne_nil fun hnil => ?_
      rw [List.drop_eq_nil_iff] at hnil
      omega
    have hsplit : line = line.take name.length ++ c :: rest := by
      rw [← hdrop, List.take_append_drop]
    rw [List.take_add, hdrop, List.map_append] at htake
    obtain ⟨hwritten, hcolon⟩ := List.append_inj htake (by simp; omega)
    obtain rfl : c = ch ':' := (tolower_colon c).mp (List.cons.inj hcolon).1
    obtain ⟨blanks, value, hrest, hblanks, hhead⟩ : ∃ blanks value, rest = blanks ++ value
        ∧ (∀ c ∈ blanks, isBlank c = true) ∧ ∀ c ∈ value.head?, isBlank c = false :=
      ⟨_, _, List.takeWhile_append_dropWhile.symm, forall_takeWhile _ _, head?_dropWhile _ _⟩
    rw [hrest] at hsplit
    exact ⟨value, _, blanks, hsplit, hwritten, hblanks, hhead⟩
  · rintro ⟨value, written, blanks, rfl, hwritten, -⟩
    have hlen : written.length = name.length := by
      have := congrArg List.length hwritten
      rwa [List.length_map, List.length_map] at this
    refine ⟨by simp; omega, ?_⟩
    rw [← hlen, List.take_length_add_append, List.map_append, hwritten]
    rfl

/-- What `header_value_line` takes from a field. -/
theorem IsField.fieldValue (hname : ch ':' ∉ name.map tolower) (hfield : IsField name value line) {outcap : Nat}
    (hfits : value.length < outcap) : fieldValue line outcap = some value := by
  obtain ⟨written, blanks, rfl, hwritten, hblanks, hhead⟩ := hfield
  have hcolon : (written ++ ch ':' :: (blanks ++ value)).dropWhile (· != ch ':') = ch ':' :: (blanks ++ value) :=
    (dropWhile_span (colon_not_mem_written hname hwritten) (by simp))
  have hvalue : (blanks ++ value).dropWhile (fun c => c == ch ' ' || c == ch '\t') = value :=
    dropWhile_span hblanks hhead
  rw [LibUpdate.fieldValue, hcolon]
  dsimp only
  rw [hvalue, if_neg (by omega)]

/-! ## A header section -/

/-- **`header_value_line` finds the value of the first field** of the name, where it fits. -/
theorem FirstField.headerValueLine (hh : IsHeaderSection h) (hname : ch ':' ∉ name.map tolower)
    (hfirst : FirstField h name value) {outcap : Nat} (hfits : value.length < outcap) :
    headerValueLine (name ++ [ch ':']) outcap h = some value := by
  obtain ⟨before, line, after, hlines, hfield, hbefore⟩ := hfirst
  obtain ⟨ls, rfl, hno, heq⟩ := hh.lines
  obtain rfl := heq.symm.trans hlines
  have htext : linesText (before ++ line :: after) = linesText before ++ (line ++ (crlf ++ linesText after)) := by
    simp [linesText]
  have hnone : ∀ l ∈ before, namesField (name ++ [ch ':']) l ≠ true := by
    intro l hl hnamed
    obtain ⟨v, hv⟩ := namesField_iff.mp hnamed
    exact hbefore l hl v hv
  have hcut : ∀ l ∈ before, ¬ crlf <:+: l := fun l hl => hno l (List.mem_append_left _ hl)
  rcases headerValueLine_lines (name ++ [ch ':']) outcap hcut (line ++ (crlf ++ linesText after)) with
    ⟨l, hl, hnamed, -⟩ | ⟨-, hgoes⟩
  · exact absurd hnamed (hnone l hl)
  · rw [htext, hgoes, headerValueLine_line outcap (hno line (by simp)), if_pos (namesField_iff.mpr ⟨_, hfield⟩)]
    exact hfield.fieldValue hname hfits

theorem NoField.not_names (hno : NoField h name) :
    ¬ Names (name ++ [ch ':']) h := by
  rintro ⟨l, hl, hnamed⟩
  obtain ⟨v, hv⟩ := namesField_iff.mp hnamed
  exact hno l hl v hv

/-! ## The fields that mark a framing -/

/-- The codings end with `chunked`, and blanks. -/
def EndsChunked (value : Bytes) : Prop :=
  ∃ codings blanks, value.map tolower = codings ++ (ascii "chunked" ++ blanks)
    ∧ (∀ c ∈ codings.getLast?, c = ch ',' ∨ isBlank c = true) ∧ ∀ c ∈ blanks, isBlank c = true

theorem containsTokenCi_of_infix {token before after : Bytes} (hne : token ≠ []) :
    ∀ {haystack : Bytes}, haystack.map tolower = before ++ (token.map tolower ++ after) →
      containsTokenCi haystack token = true := by
  induction before with
  | nil =>
      intro haystack heq
      cases haystack with
      | nil =>
          have hnil := (List.append_eq_nil_iff.mp (List.append_eq_nil_iff.mp heq.symm).2).1
          exact absurd (List.map_eq_nil_iff.mp hnil) hne
      | cons c cs =>
          rw [containsTokenCi, Bool.or_eq_true]
          exact Or.inl (List.isPrefixOf_iff_prefix.mpr ⟨after, heq.symm⟩)
  | cons b before ih =>
      intro haystack heq
      cases haystack with
      | nil => cases heq
      | cons c cs =>
          rw [containsTokenCi, Bool.or_eq_true]
          exact Or.inr (ih (List.cons.inj heq).2)

theorem isChunkedEncoding_of_field (hh : IsHeaderSection h)
    (hfirst : FirstField h (ascii "Transfer-Encoding") value) (hends : EndsChunked value)
    (hfits : value.length < 128) : isChunkedEncoding h = true := by
  have hvalue : headerValueLine transferEncoding 128 h = some value :=
    hfirst.headerValueLine hh (by decide +kernel) hfits
  obtain ⟨codings, blanks, heq, -⟩ := hends
  rw [isChunkedEncoding, hvalue]
  exact containsTokenCi_of_infix (by decide) heq

theorem parseContentLength_of_field (hh : IsHeaderSection h) (d : Decimal) {blanks : Bytes}
    (hfirst : FirstField h (ascii "Content-Length") (d.digits ++ blanks)) (hblanks : ∀ c ∈ blanks, isBlank c = true)
    (hsize : d.value < UInt64.size) (hfits : (d.digits ++ blanks).length < 64) :
    parseContentLength h = some d.value := by
  have hvalue : headerValueLine contentLength 64 h = some (d.digits ++ blanks) :=
    hfirst.headerValueLine hh (by decide +kernel) hfits
  have hplain : ∀ c, isBlank c = true → isDigitOf 10 c = false ∧ c ≠ ch 'x' ∧ c ≠ ch 'X' :=
    forall_byte (by decide +kernel)
  have hread := d.strtoull_digits fun c hc => hplain c (hblanks c (List.mem_of_mem_head? hc))
  rw [parseContentLength, hvalue, Option.map_some, hread, if_neg (by omega)]

end LibUpdate
