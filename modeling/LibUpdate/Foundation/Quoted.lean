import LibUpdate.Foundation.Bytes

/-!
# `Foundation.Quoted` — searching a text of quoted strings for a quoted word

A text is a sequence of quoted strings with gaps between them. Inside a string a backslash takes the byte
behind it out of the count of the quotes, and a gap has no quote. A search for a word between quotes does not
know any of this: it looks for the bytes. `strstr_quotedText` says where it stops: at a string that is the
word or ends in a quote and the word, or at the closing quote of a string that is followed by the word and
the next opening quote.
-/

namespace LibUpdate

/-- The inside of a quoted string, between its quotes. -/
inductive QuotedBody : Bytes → Prop where
  | nil : QuotedBody []
  | byte {c : UInt8} {s : Bytes} (hq : c ≠ ch '"') (hb : c ≠ ch '\\') (hs : QuotedBody s) : QuotedBody (c :: s)
  | escaped (c : UInt8) {s : Bytes} (hs : QuotedBody s) : QuotedBody (ch '\\' :: c :: s)

def quoted (s : Bytes) : Bytes := ch '"' :: s ++ [ch '"']

/-- A word: it has neither a quote nor a backslash. -/
structure PlainWord (k : Bytes) : Prop where
  quote : ch '"' ∉ k
  backslash : ch '\\' ∉ k

/-- The string is the word, or it ends in a quote and the word. -/
def EndsInQuoted (k s : Bytes) : Prop := ch '"' :: k <:+ ch '"' :: s

instance (k s : Bytes) : Decidable (EndsInQuoted k s) := inferInstanceAs (Decidable (_ <:+ _))

/-- Strings, each with the gap behind it. -/
def quotedText : List (Bytes × Bytes) → Bytes
  | [] => []
  | (s, gap) :: ts => ch '"' :: (s ++ ch '"' :: (gap ++ quotedText ts))

variable {k s rest : Bytes}

namespace QuotedBody

theorem append {t : Bytes} (hs : QuotedBody s) (ht : QuotedBody t) : QuotedBody (s ++ t) := by
  induction hs with
  | nil => exact ht
  | byte hq hb _ ih => exact .byte hq hb ih
  | escaped c _ ih => exact .escaped c ih

theorem of_plain (hq : ch '"' ∉ s) (hb : ch '\\' ∉ s) : QuotedBody s := by
  induction s with
  | nil => exact .nil
  | cons c s ih =>
      rw [List.mem_cons, not_or] at hq hb
      exact .byte (Ne.symm hq.1) (Ne.symm hb.1) (ih hq.2 hb.2)

theorem flatMap {α : Type} {f : α → Bytes} (h : ∀ a, QuotedBody (f a)) (l : List α) :
    QuotedBody (l.flatMap f) := by
  induction l with
  | nil => exact .nil
  | cons a l ih => exact (h a).append ih

/-- Up to the closing quote, a string spells a word exactly when it is that word: before every other quote
    stands a backslash. -/
theorem word_starts (hs : QuotedBody s) (hk : PlainWord k) : k ++ [ch '"'] <+: s ++ ch '"' :: rest ↔ s = k := by
  induction hs generalizing k with
  | nil =>
      cases k with
      | nil => simp
      | cons c k =>
          have hc : c ≠ ch '"' := fun h => hk.quote (by simp [h])
          simp [hc]
  | @byte c s hq hb _ ih =>
      cases k with
      | nil => simp [hq.symm]
      | cons d k =>
          have hk' : PlainWord k :=
            ⟨fun h => hk.quote (List.mem_cons_of_mem d h), fun h => hk.backslash (List.mem_cons_of_mem d h)⟩
          rw [List.cons_append, List.cons_append, List.cons_prefix_cons, ih hk', List.cons.injEq]
          exact and_congr_left fun _ => eq_comm
  | escaped c _ _ =>
      constructor
      · intro h
        cases k with
        | nil => exact absurd (List.cons_prefix_cons.mp h).1 (by decide)
        | cons d k =>
            have hd : d = ch '\\' := (List.cons_prefix_cons.mp h).1
            exact absurd (by simp [hd]) hk.backslash
      · rintro rfl
        exact absurd (by simp) hk.backslash

end QuotedBody

theorem quoted_starts : quoted k <+: ch '"' :: rest ↔ k ++ [ch '"'] <+: rest := by
  simp [quoted, List.cons_prefix_cons]

/-- No quoted word starts at another byte than a quote. -/
theorem strstr_byte {c : UInt8} (hc : c ≠ ch '"') : strstr (quoted k) (c :: rest) = strstr (quoted k) rest :=
  strstr_skip fun h => hc (List.cons_prefix_cons.mp h).1.symm

theorem strstr_quote (h : ¬ k ++ [ch '"'] <+: rest) :
    strstr (quoted k) (ch '"' :: rest) = strstr (quoted k) rest :=
  strstr_skip fun hp => h (quoted_starts.mp hp)

theorem strstr_gap {gap : Bytes} (hgap : ch '"' ∉ gap) (rest : Bytes) :
    strstr (quoted k) (gap ++ rest) = strstr (quoted k) rest := by
  induction gap with
  | nil => rfl
  | cons c gap ih =>
      rw [List.mem_cons, not_or] at hgap
      rw [List.cons_append, strstr_byte (Ne.symm hgap.1), ih hgap.2]

theorem endsInQuoted_iff : EndsInQuoted k s ↔ s = k ∨ ch '"' :: k <:+ s := by
  rw [EndsInQuoted, List.suffix_cons_iff, List.cons.injEq]
  exact or_congr_left ⟨fun h => h.2.symm, fun h => ⟨rfl, h.symm⟩⟩

theorem suffix_byte {c : UInt8} (hc : c ≠ ch '"') : ch '"' :: k <:+ c :: s ↔ ch '"' :: k <:+ s := by
  rw [List.suffix_cons_iff, List.cons.injEq]
  exact or_iff_right fun h => hc h.1.symm

/-- The search from inside a string: it stops where the string ends in a quote and the word, and otherwise
    comes to the closing quote. -/
theorem QuotedBody.strstr (hs : QuotedBody s) (hk : PlainWord k) (rest : Bytes) :
    strstr (quoted k) (s ++ ch '"' :: rest)
      = if ch '"' :: k <:+ s then some (quoted k ++ rest) else LibUpdate.strstr (quoted k) (ch '"' :: rest) := by
  induction hs with
  | nil => rw [if_neg (by simp), List.nil_append]
  | @byte c s hq hb hs ih =>
      rw [List.cons_append, strstr_byte hq, ih]
      simp only [suffix_byte hq]
  | @escaped c s hs ih =>
      rw [List.cons_append, List.cons_append, strstr_byte (by decide)]
      simp only [suffix_byte (show ch '\\' ≠ ch '"' by decide)]
      by_cases hc : c = ch '"'
      · subst hc
        by_cases hword : s = k
        · -- the escaped quote, the word and the closing quote
          subst hword
          have hfound : ch '"' :: (s ++ ch '"' :: rest) = quoted s ++ rest := by simp [quoted]
          rw [if_pos (List.suffix_refl _), hfound, strstr_prefix]
        · have hiff : ch '"' :: k <:+ ch '"' :: s ↔ ch '"' :: k <:+ s := by
            rw [← EndsInQuoted, endsInQuoted_iff]
            exact or_iff_right hword
          rw [strstr_quote fun h => hword ((hs.word_starts hk).mp h), ih]
          simp only [hiff]
      · rw [strstr_byte hc, ih]
        simp only [suffix_byte hc]

/-- The search over a whole string. -/
theorem strstr_string (hs : QuotedBody s) (hk : PlainWord k) (rest : Bytes) :
    strstr (quoted k) (ch '"' :: (s ++ ch '"' :: rest))
      = if EndsInQuoted k s then some (quoted k ++ rest) else strstr (quoted k) (ch '"' :: rest) := by
  by_cases hword : s = k
  · subst hword
    have hfound : ch '"' :: (s ++ ch '"' :: rest) = quoted s ++ rest := by simp [quoted]
    rw [if_pos (endsInQuoted_iff.mpr (Or.inl rfl)), hfound, strstr_prefix]
  · rw [strstr_quote fun h => hword ((hs.word_starts hk).mp h), hs.strstr hk]
    simp only [endsInQuoted_iff, hword, false_or]

/-- A gap and the next opening quote spell a word exactly when the gap is that word. -/
theorem word_starts_gap {gap : Bytes} (hgap : ch '"' ∉ gap) (hk : PlainWord k) (ts : List (Bytes × Bytes)) :
    k ++ [ch '"'] <+: gap ++ quotedText ts ↔ gap = k ∧ ts ≠ [] := by
  induction gap generalizing k with
  | nil =>
      cases ts with
      | nil => simp [quotedText]
      | cons t ts =>
          cases k with
          | nil => simp [quotedText]
          | cons c k =>
              have hc : c ≠ ch '"' := fun h => hk.quote (by simp [h])
              simp [quotedText, hc]
  | cons c gap ih =>
      rw [List.mem_cons, not_or] at hgap
      cases k with
      | nil => simp [hgap.1]
      | cons d k =>
          have hk' : PlainWord k :=
            ⟨fun h => hk.quote (List.mem_cons_of_mem d h), fun h => hk.backslash (List.mem_cons_of_mem d h)⟩
          rw [List.cons_append, List.cons_append, List.cons_prefix_cons, ih hgap.2 hk', List.cons.injEq, and_assoc]
          exact and_congr_left fun _ => eq_comm

/-- **Where the search stops.** -/
theorem strstr_quotedText (hk : PlainWord k) (hs : QuotedBody s) {gap : Bytes} (hgap : ch '"' ∉ gap)
    (ts : List (Bytes × Bytes)) :
    strstr (quoted k) (quotedText ((s, gap) :: ts))
      = if EndsInQuoted k s then some (quoted k ++ (gap ++ quotedText ts))
        else if gap = k ∧ ts ≠ [] then some (ch '"' :: (gap ++ quotedText ts))
        else strstr (quoted k) (quotedText ts) := by
  rw [quotedText, strstr_string hs hk]
  by_cases hend : EndsInQuoted k s
  · rw [if_pos hend, if_pos hend]
  · rw [if_neg hend, if_neg hend]
    by_cases hstop : gap = k ∧ ts ≠ []
    · rw [if_pos hstop]
      obtain ⟨more, hmore⟩ := quoted_starts.mpr ((word_starts_gap hgap hk ts).mpr hstop)
      rw [← hmore, strstr_prefix]
    · rw [if_neg hstop, strstr_quote fun h => hstop ((word_starts_gap hgap hk ts).mp h), strstr_gap hgap]

end LibUpdate
