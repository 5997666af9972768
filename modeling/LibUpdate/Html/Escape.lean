import LibUpdate.Html.Grammar
import LibUpdate.Html.Room

/-!
# `Html.Escape` — plain text, and its two ways through `update_html.c`

A description in the plain format goes through `update_html_escape_plain_alloc`, whose loop is the one of
`emit_html_escaped` written out again. The sanitizer meets plain text as one chunk that no `<` ends. Both
write the escaped text, and both fail exactly where the text and its NUL do not fit under the limit.
-/

namespace LibUpdate

theorem length_escapeByte (c : UInt8) : 1 ≤ (escapeByte c).length ∧ (escapeByte c).length ≤ 6 := by
  rcases escapeByte_cases c with hmem | ⟨_, hself⟩
  · have hlen : ∀ e ∈ entities, 1 ≤ e.2.length ∧ e.2.length ≤ 6 := by decide
    exact hlen _ hmem
  · rw [hself, List.length_singleton]
    decide

/-- A character reference has at most six bytes. -/
theorem length_escaped_le (s : Bytes) : (escaped s).length ≤ 6 * s.length := by
  induction s with
  | nil => exact Nat.le_refl 0
  | cons c s ih =>
      have hc := (length_escapeByte c).2
      rw [escaped_cons, List.length_append, List.length_cons]
      omega

/-- The escaped text of an input that is not too long is far below the sizes at which doubling wraps. -/
theorem escaped_lt_halfSize {s : Bytes} (hlen : s.length ≤ htmlDescMaxIn) : (escaped s).length < halfSize := by
  have hescaped := length_escaped_le s
  have hmax : 6 * htmlDescMaxIn < halfSize := by decide
  omega

/-- What is written into a new buffer: the whole text, where it fits. -/
theorem Fills.fresh {b : Buf} {w : Bytes} {r : Option Buf} (h : Fills b w r) (hd : b.d = []) :
    r.map Buf.d = if w.length + 1 ≤ b.maxTotal then some w else none := by
  have hlen : b.d.length + w.length = w.length := by rw [hd, List.length_nil, Nat.zero_add]
  split
  · next hroom =>
    obtain ⟨b', rfl, hd', _⟩ := h.written (by omega)
    rw [Option.map_some, hd', hd, List.nil_append]
  · next hfull => rw [h.full (by omega), Option.map_none]

/-- `update_html_escape_plain_alloc` as a function of the text and the limit. -/
theorem updateHtmlEscapePlainAlloc_eq {s : Bytes} (hlen : s.length ≤ htmlDescMaxIn) (maxOutTotal : Nat) :
    updateHtmlEscapePlainAlloc memory maxOutTotal s
      = if (escaped s).length + 1 ≤ maxOutTotal then some (escaped s) else none := by
  by_cases hzero : maxOutTotal = 0
  · subst hzero
    rfl
  obtain ⟨b, hb, hd, hmax⟩ := bufInit_memory (Nat.pos_of_ne_zero hzero)
  have hargs : ¬ (maxOutTotal = 0 || s.length > htmlDescMaxIn) = true := by
    simp [hzero, Nat.not_lt.mpr hlen]
  have hfills : Fills b (escaped s) (emitHtmlEscaped memory b s) := by
    refine emitHtmlEscaped_fills ?_
    rw [hd, List.length_nil, Nat.zero_add]
    exact escaped_lt_halfSize hlen
  rw [updateHtmlEscapePlainAlloc, if_neg hargs, hb]
  dsimp only
  rw [hfills.fresh hd, hmax]

/-- Text without `<` is one chunk: the first pass of the main loop writes it and leaves. -/
theorem sanitizeRound_text (alloc : Nat → Bool) (fuel : Nat) (b : Buf) {s : Bytes} (hlt : ch '<' ∉ s) :
    sanitizeRound alloc fuel (.start s b)
      = some (.leave ((emitHtmlEscaped alloc b s).map fun buf => { Scan.start s b with buf := buf })) := by
  have htest : ∀ c ∈ s, (c != ch '<') = true := fun c hc => bne_iff_ne.mpr fun heq => hlt (heq ▸ hc)
  have hdrop : s.dropWhile (· != ch '<') = [] := by
    have hspan : (s ++ []).dropWhile (· != ch '<') = [] := dropWhile_span htest (by simp)
    rwa [List.append_nil] at hspan
  have htake : s.takeWhile (· != ch '<') = s := by
    have hsplit := List.takeWhile_append_dropWhile (p := (· != ch '<')) (l := s)
    rwa [hdrop, List.append_nil] at hsplit
  unfold sanitizeRound
  cases s with
  | nil => rfl
  | cons c s =>
      rw [if_neg (show ¬ (Scan.start (c :: s) b).p = [] from List.cons_ne_nil c s)]
      dsimp only [Scan.start]
      rw [htake, hdrop]
      cases emitHtmlEscaped alloc b (c :: s) with
      | none => rfl
      | some buf => rfl

/-- On text without `<` the sanitizer does what the escaper does, wherever memory runs out. -/
theorem updateHtmlSanitizeAlloc_text (alloc : Nat → Bool) (maxOutTotal : Nat) {fuel : Nat} (hfuel : 0 < fuel)
    {s : Bytes} (hlt : ch '<' ∉ s) :
    updateHtmlSanitizeAlloc alloc maxOutTotal fuel s
      = some (updateHtmlEscapePlainAlloc alloc maxOutTotal s) := by
  unfold updateHtmlSanitizeAlloc updateHtmlEscapePlainAlloc
  split
  · rfl
  cases bufInit alloc maxOutTotal with
  | none => rfl
  | some b =>
      obtain ⟨n, rfl⟩ : ∃ n, fuel = n + 1 := ⟨fuel - 1, by omega⟩
      dsimp only
      rw [whileLoop, iterate_leave (sanitizeRound_text alloc (n + 1) b hlt)]
      cases emitHtmlEscaped alloc b s with
      | none => rfl
      | some buf => rfl

/-- **Plain text is escaped exactly, and both ways agree.** With enough memory the escaper succeeds exactly
    when the escaped text and its NUL are within the limit. The output has no raw `<`, `>` or `"`, and
    reading its character references back gives the text. On text without `<` the sanitizer gives the same
    result with the same limit, failures included. -/
theorem updateHtmlEscapePlainAlloc_exact (s : Bytes) (hlen : s.length ≤ htmlDescMaxIn) (maxOutTotal : Nat) :
    ((updateHtmlEscapePlainAlloc memory maxOutTotal s).isSome ↔ (escaped s).length + 1 ≤ maxOutTotal)
      ∧ (∀ out, updateHtmlEscapePlainAlloc memory maxOutTotal s = some out →
          (ch '<' ∉ out ∧ ch '>' ∉ out ∧ ch '"' ∉ out) ∧ entityDecode out = s)
      ∧ (ch '<' ∉ s → ∀ fuel, 0 < fuel →
          updateHtmlSanitizeAlloc memory maxOutTotal fuel s
            = some (updateHtmlEscapePlainAlloc memory maxOutTotal s)) := by
  refine ⟨?_, ?_, fun hlt fuel hfuel => updateHtmlSanitizeAlloc_text memory maxOutTotal hfuel hlt⟩
  · rw [updateHtmlEscapePlainAlloc_eq hlen]
    split <;> simp [*]
  · intro out hout
    rw [updateHtmlEscapePlainAlloc_eq hlen] at hout
    split at hout
    · obtain rfl := Option.some.inj hout
      have htext := escapedText_escaped s
      exact ⟨⟨htext.lt, htext.gt, htext.quot⟩, entityDecode_escaped s⟩
    · cases hout

theorem updateHtmlEscapePlainAlloc_exact_sample :
    updateHtmlEscapePlainAlloc memory 15 (ascii "a & \"b\"") = none
      ∧ updateHtmlEscapePlainAlloc memory 22 (ascii "a & \"b\"") = some (ascii "a &amp; &quot;b&quot;")
      ∧ updateHtmlSanitizeAlloc memory 22 1 (ascii "a & \"b\"")
        = some (updateHtmlEscapePlainAlloc memory 22 (ascii "a & \"b\"")) :=
  ⟨by decide +kernel, by decide +kernel,
    (updateHtmlEscapePlainAlloc_exact (ascii "a & \"b\"") (by decide +kernel) 22).2.2 (by decide +kernel) 1 (by decide)⟩

end LibUpdate
