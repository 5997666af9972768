import LibUpdate.Foundation.Nesting
import LibUpdate.Html.Pass

/-!
# `Html.Grammar` — the output language of the sanitizer

`Doc` is the language of the documents with balanced and properly nested tags of the allowed kinds, escaped
text between them, and links only to targets of a few schemes. Whatever the input was, what the sanitizer
writes is in `Doc`. The invariant of the main loop is `Doc.Pending`: the output so far is a document in which
exactly the tags on the stack are still open.
-/

namespace LibUpdate

/-! ## Escaped text -/

def entities : List (UInt8 × Bytes) :=
  [(ch '&', ascii "&amp;"), (ch '<', ascii "&lt;"), (ch '>', ascii "&gt;"), (ch '"', ascii "&quot;")]

/-- Text without raw `<`, `>` and `"`, in which every `&` starts one of the four character references. -/
structure EscapedText (s : Bytes) : Prop where
  lt : ch '<' ∉ s
  gt : ch '>' ∉ s
  quot : ch '"' ∉ s
  amp : ∀ pre post, s = pre ++ ch '&' :: post → ∃ e ∈ entities, e.2 <+: ch '&' :: post

/-- Reads the character references of a text back. -/
def entityDecode : Bytes → Bytes
  | [] => []
  | c :: s =>
      match entities.find? fun e => e.2.isPrefixOf (c :: s) with
      | some (d, e) => d :: entityDecode (s.drop (e.length - 1))
      | none => c :: entityDecode s
  termination_by s => s.length
  decreasing_by
    · simp only [List.length_drop, List.length_cons]; omega
    · simp

theorem EscapedText.nil : EscapedText [] := by
  refine ⟨by simp, by simp, by simp, ?_⟩
  intro pre post h
  simp at h

theorem EscapedText.append {s t : Bytes} (hs : EscapedText s) (ht : EscapedText t) : EscapedText (s ++ t) := by
  refine ⟨by simp [hs.lt, ht.lt], by simp [hs.gt, ht.gt], by simp [hs.quot, ht.quot], ?_⟩
  intro pre post h
  rcases List.append_eq_append_iff.mp h with ⟨u, hpre, ht'⟩ | ⟨u, hs', hpost⟩
  · exact ht.amp u post ht'
  · cases u with
    | nil => exact ht.amp [] post (by simpa using hpost.symm)
    | cons c u =>
        rw [List.cons_append] at hpost
        obtain ⟨rfl, rfl⟩ := List.cons.inj hpost
        obtain ⟨e, he, hprefix⟩ := hs.amp pre u hs'
        exact ⟨e, he, hprefix.trans (List.prefix_append (ch '&' :: u) t)⟩

/-- The bytes that are escaped are those with a character reference. -/
theorem escapeByte_cases (c : UInt8) :
    (c, escapeByte c) ∈ entities
      ∨ (c ≠ ch '&' ∧ c ≠ ch '<' ∧ c ≠ ch '>' ∧ c ≠ ch '"') ∧ escapeByte c = [c] := by
  by_cases hamp : c = ch '&'
  · subst hamp; exact Or.inl (by decide)
  by_cases hlt : c = ch '<'
  · subst hlt; exact Or.inl (by decide)
  by_cases hgt : c = ch '>'
  · subst hgt; exact Or.inl (by decide)
  by_cases hquot : c = ch '"'
  · subst hquot; exact Or.inl (by decide)
  refine Or.inr ⟨⟨hamp, hlt, hgt, hquot⟩, ?_⟩
  rw [escapeByte, if_neg hamp, if_neg hlt, if_neg hgt, if_neg hquot]

/-- An entity is escaped text: its only `&` is its first byte. -/
theorem escapedText_entity {e : UInt8 × Bytes} (he : e ∈ entities) : EscapedText e.2 := by
  have hchars : ∀ e ∈ entities, ch '<' ∉ e.2 ∧ ch '>' ∉ e.2 ∧ ch '"' ∉ e.2 ∧ e.2.head? = some (ch '&')
      ∧ ch '&' ∉ e.2.tail := by decide
  obtain ⟨hlt, hgt, hquot, hhead, htail⟩ := hchars e he
  refine ⟨hlt, hgt, hquot, ?_⟩
  intro pre post h
  refine ⟨e, he, ?_⟩
  cases pre with
  | nil => exact ⟨[], by rw [List.append_nil, h, List.nil_append]⟩
  | cons d pre =>
      rw [h] at htail
      exact absurd (by simp) htail

theorem escapedText_escapeByte (c : UInt8) : EscapedText (escapeByte c) := by
  rcases escapeByte_cases c with hmem | ⟨⟨hamp, hlt, hgt, hquot⟩, hself⟩
  · exact escapedText_entity hmem
  · rw [hself]
    refine ⟨by simpa using hlt.symm, by simpa using hgt.symm, by simpa using hquot.symm, ?_⟩
    intro pre post h
    have hmem : ch '&' ∈ [c] := by rw [h]; simp
    exact absurd (List.mem_singleton.mp hmem).symm hamp

/-- What `emit_html_escaped` writes is escaped text. -/
theorem escapedText_escaped (s : Bytes) : EscapedText (escaped s) := by
  induction s with
  | nil => exact .nil
  | cons c s ih => exact (escapedText_escapeByte c).append ih

theorem entityDecode_entity {e : UInt8 × Bytes} (he : e ∈ entities) (t : Bytes) :
    entityDecode (e.2 ++ t) = e.1 :: entityDecode t := by
  -- no reference is a prefix of another one
  have hcases : e = (ch '&', ascii "&amp;") ∨ e = (ch '<', ascii "&lt;") ∨ e = (ch '>', ascii "&gt;")
      ∨ e = (ch '"', ascii "&quot;") := by simpa [entities] using he
  rcases hcases with rfl | rfl | rfl | rfl
  · change entityDecode (ch '&' :: (ascii "amp;" ++ t)) = _
    rw [entityDecode]
    rfl
  · change entityDecode (ch '&' :: (ascii "lt;" ++ t)) = _
    rw [entityDecode]
    rfl
  · change entityDecode (ch '&' :: (ascii "gt;" ++ t)) = _
    rw [entityDecode]
    rfl
  · change entityDecode (ch '&' :: (ascii "quot;" ++ t)) = _
    rw [entityDecode]
    rfl

theorem entityDecode_plain {c : UInt8} (hc : c ≠ ch '&') (t : Bytes) :
    entityDecode (c :: t) = c :: entityDecode t := by
  have hheads : ∀ e ∈ entities, e.2.head? = some (ch '&') := by decide
  have hfind : (entities.find? fun e => e.2.isPrefixOf (c :: t)) = none := by
    rw [List.find?_eq_none]
    intro e he hprefix
    obtain ⟨rest, hrest⟩ := List.isPrefixOf_iff_prefix.mp hprefix
    have hhead := hheads e he
    cases hd : e.2 with
    | nil => rw [hd] at hhead; cases hhead
    | cons d es =>
        rw [hd] at hhead hrest
        exact hc ((List.cons.inj hrest).1.symm.trans (Option.some.inj hhead))
  rw [entityDecode, hfind]

/-- Decoding undoes escaping. -/
theorem entityDecode_escaped (s : Bytes) : entityDecode (escaped s) = s := by
  induction s with
  | nil => rw [escaped_nil, entityDecode]
  | cons c s ih =>
      rw [escaped_cons]
      rcases escapeByte_cases c with hmem | ⟨⟨hamp, _⟩, hself⟩
      · rw [entityDecode_entity hmem, ih]
      · rw [hself, List.singleton_append, entityDecode_plain hamp, ih]

/-! ## Link targets -/

def linkSchemes : List Bytes := [ascii "http://", ascii "https://", ascii "mailto:"]

/-- After leading white space a target starts with `#`, or with a scheme in any case of letters. -/
def SafeTarget (target : Bytes) : Prop :=
  (target.dropWhile isspace).head? = some (ch '#')
    ∨ ∃ scheme ∈ linkSchemes, scheme <+: (target.dropWhile isspace).map asciiLowerUc

theorem startsCi_iff {s lit : Bytes} : startsCi s lit = true ↔ lit <+: s.map asciiLowerUc := by
  induction lit generalizing s with
  | nil => simp [startsCi]
  | cons l lit ih =>
      cases s with
      | nil => simp [startsCi]
      | cons c s =>
          rw [startsCi, List.map_cons, List.cons_prefix_cons, Bool.and_eq_true, beq_iff_eq, ih]
          exact and_congr_left fun _ => eq_comm

theorem hrefIsSafe_iff {h : Bytes} : hrefIsSafe h = true ↔ SafeTarget h := by
  unfold hrefIsSafe SafeTarget
  dsimp only
  split
  · next hnil => simp [hnil, linkSchemes, ascii]
  split
  · next hhash => simp [hhash]
  next hhash =>
  simp only [hhash, false_or, linkSchemes, List.mem_cons, List.not_mem_nil, or_false, exists_eq_or_imp,
    exists_eq_left, ← startsCi_iff]
  split; · simp [*]
  split; · simp [*]
  split; · simp [*]
  simp [*]

theorem dropWhile_isspace_cstr (h : Bytes) : (cstr h).dropWhile isspace = cstr (h.dropWhile isspace) := by
  induction h with
  | nil => rfl
  | cons c h ih =>
      by_cases hc : c = 0
      · subst hc
        rfl
      rw [cstr_cons hc]
      cases hspace : isspace c with
      | true => rw [List.dropWhile_cons_of_pos hspace, List.dropWhile_cons_of_pos hspace, ih]
      | false => rw [dropWhile_eq_self hspace, dropWhile_eq_self hspace, cstr_cons hc]

theorem prefix_cstr {lit s : Bytes} (hlit : 0 ∉ lit) (h : lit <+: s.map asciiLowerUc) :
    lit <+: (cstr s).map asciiLowerUc := by
  induction s generalizing lit with
  | nil => exact h
  | cons c s ih =>
      cases lit with
      | nil => exact List.nil_prefix
      | cons l lit =>
          rw [List.map_cons, List.cons_prefix_cons] at h
          obtain ⟨rfl, h⟩ := h
          have hc : c ≠ 0 := by
            rintro rfl
            exact hlit List.mem_cons_self
          rw [cstr_cons hc, List.map_cons, List.cons_prefix_cons]
          exact ⟨rfl, ih (fun hm => hlit (List.mem_cons_of_mem _ hm)) h⟩

/-- What a reader of the stored target sees of it is safe too: NUL is no white space and is in no scheme. -/
theorem safeTarget_cstr {h : Bytes} (hs : SafeTarget h) : SafeTarget (cstr h) := by
  unfold SafeTarget
  rw [dropWhile_isspace_cstr]
  rcases hs with hhash | ⟨scheme, hmem, hprefix⟩
  · left
    cases hd : h.dropWhile isspace with
    | nil => rw [hd] at hhash; cases hhash
    | cons c s =>
        rw [hd] at hhash
        obtain rfl : c = ch '#' := Option.some.inj hhash
        rw [cstr_cons (by decide)]
        rfl
  · have hzero : ∀ scheme ∈ linkSchemes, (0 : UInt8) ∉ scheme := by decide
    exact Or.inr ⟨scheme, hmem, prefix_cstr (hzero scheme hmem) hprefix⟩

/-! ## Documents -/

/-- The brackets of a document: escaped text and `<br>` have no brackets; every tag but `br` and `a` opens
    with its bare name, and `a` with an escaped safe target. -/
def docBrackets : Brackets Tid UInt8 where
  Atom w := EscapedText w ∨ w = ascii "<br>"
  Opens t w := (t ≠ .br ∧ t ≠ .a ∧ w = openTag t)
    ∨ (t = .a ∧ ∃ v, EscapedText v ∧ SafeTarget (entityDecode v) ∧ w = ascii "<a href=\"" ++ v ++ ascii "\">")
  close := closeTag

/-- `Doc ::= (Text | <br> | <t> Doc </t> | <a href="V"> Doc </a>)*`. -/
def Doc : Bytes → Prop := docBrackets.Nested

/-- A document in which the tags `stack` are still open, the innermost first. -/
def DocPending : List Tid → Bytes → Prop := docBrackets.Pending

theorem opens_anchorTag {href : Bytes} (hsafe : SafeTarget href) :
    docBrackets.Opens .a (anchorTag href) :=
  Or.inr ⟨rfl, escaped href, escapedText_escaped href, by rwa [entityDecode_escaped], rfl⟩

/-- An effect of markup keeps the invariant. -/
theorem docPending_effect {stack stack' : List Tid} {out w : Bytes} (h : DocPending stack out)
    (heff : Effect stack stack' w) : DocPending stack' (out ++ w) := by
  cases heff with
  | nothing => rwa [List.append_nil]
  | lt => exact h.append (.of_atom (Or.inl (escapedText_entity (e := (ch '<', ascii "&lt;")) (by decide))))
  | br => exact h.append (.of_atom (Or.inr rfl))
  | opens _ hbr ha => exact h.opens (Or.inl ⟨hbr, ha, rfl⟩)
  | anchor _ hsafe _ => exact h.opens (opens_anchorTag (safeTarget_cstr (hrefIsSafe_iff.mp hsafe)))
  | closes _ _ => exact h.closes

theorem docPending_escaped {stack : List Tid} {out : Bytes} (h : DocPending stack out) (s : Bytes) :
    DocPending stack (out ++ escaped s) :=
  h.append (.of_atom (Or.inl (escapedText_escaped s)))

/-- The stack never holds `br`, whose closing tag would not be written. -/
theorem br_not_mem_effect {stack stack' : List Tid} {w : Bytes} (h : Tid.br ∉ stack)
    (heff : Effect stack stack' w) : Tid.br ∉ stack' := by
  cases heff with
  | nothing => exact h
  | lt => exact h
  | br => exact h
  | opens _ hbr _ => simp [h, hbr.symm]
  | anchor _ _ _ => simp [h]
  | closes _ _ => exact fun hm => h (List.mem_cons_of_mem _ hm)

/-- The loop behind the main loop writes the closing tags. -/
theorem closeAll_d {alloc : Nat → Bool} {b b' : Buf} {stack : List Tid} (hbr : Tid.br ∉ stack)
    (h : closeAll alloc b stack = some b') : b'.d = b.d ++ stack.flatMap closeTag := by
  induction stack generalizing b with
  | nil =>
      cases h
      exact (List.append_nil _).symm
  | cons t stack ih =>
      rw [List.mem_cons, not_or] at hbr
      unfold closeAll at h
      split at h
      · cases h
      · next b₁ hb =>
        rw [ih hbr.2 h, bufEmitCloseTag_d (Ne.symm hbr.1) hb, List.flatMap_cons, List.append_assoc]

/-! ## No NUL is added -/

theorem nul_not_mem_escaped {s : Bytes} (h : (0 : UInt8) ∉ s) : (0 : UInt8) ∉ escaped s := by
  have hentities : ∀ e ∈ entities, (0 : UInt8) ∉ e.2 := by decide
  intro hmem
  obtain ⟨c, hc, hzero⟩ := List.mem_flatMap.mp hmem
  rcases escapeByte_cases c with he | ⟨_, hself⟩
  · exact hentities _ he hzero
  · rw [hself, List.mem_singleton] at hzero
    exact h (hzero ▸ hc)

theorem nul_not_mem_effect {stack stack' : List Tid} {w : Bytes} (heff : Effect stack stack' w) :
    (0 : UInt8) ∉ w := by
  have hopen : ∀ t, (0 : UInt8) ∉ openTag t := by intro t; cases t <;> decide
  have hclose : ∀ t, (0 : UInt8) ∉ closeTag t := by intro t; cases t <;> decide
  cases heff with
  | nothing => simp
  | lt => decide
  | br => decide
  | opens _ _ _ => exact hopen _
  | closes _ _ => exact hclose _
  | @anchor href _ _ _ =>
      have hfront : (0 : UInt8) ∉ ascii "<a href=\"" := by decide
      have hback : (0 : UInt8) ∉ ascii "\">" := by decide
      simp [anchorTag, hfront, hback, nul_not_mem_escaped (nul_not_mem_cstr href)]

/-! ## The invariant of the main loop -/

/-- What holds before every pass of the main loop on `input`. -/
structure LoopOk (input : Bytes) (st : Scan) : Prop where
  cursor : st.p <:+ input
  pending : DocPending st.stack st.buf.d
  noBr : Tid.br ∉ st.stack
  noNul : (0 : UInt8) ∉ input → (0 : UInt8) ∉ st.buf.d

theorem LoopOk.start {alloc : Nat → Bool} {maxOutTotal : Nat} {input : Bytes} {b : Buf}
    (hb : bufInit alloc maxOutTotal = some b) : LoopOk input (.start input b) := by
  have hd : (Scan.start input b).buf.d = [] := bufInit_d hb
  refine ⟨List.suffix_refl input, ?_, by simp [Scan.start], by simp [hd]⟩
  rw [hd]
  exact .done .nil

theorem LoopOk.chunk_noNul {input : Bytes} {st : Scan} (h : LoopOk input st) (hin : (0 : UInt8) ∉ input) :
    (0 : UInt8) ∉ escaped st.chunk := by
  apply nul_not_mem_escaped
  intro hmem
  exact hin (h.cursor.subset ((List.takeWhile_sublist _).subset hmem))

/-- A pass that goes round again keeps the invariant. -/
theorem LoopOk.again {alloc : Nat → Bool} {fuel : Nat} {input : Bytes} {st st' : Scan} (h : LoopOk input st)
    (hr : sanitizeRound alloc fuel st = some (.again st')) : LoopOk input st' := by
  cases sanitizeRound_done hr with
  | again hlt hp hd heff =>
      rename_i rest w
      have hrest : rest <:+ st.p := by
        have hsuffix := st.lt_suffix
        rw [hlt] at hsuffix
        exact (List.suffix_cons _ rest).trans hsuffix
      refine ⟨(hp.trans hrest).trans h.cursor, ?_, br_not_mem_effect h.noBr heff, ?_⟩
      · rw [hd]
        exact docPending_effect (docPending_escaped h.pending st.chunk) heff
      · intro hin
        rw [hd]
        simp only [List.mem_append, not_or]
        exact ⟨⟨h.noNul hin, h.chunk_noNul hin⟩, nul_not_mem_effect heff⟩

/-- What is written when the loop is left and all tags are closed. -/
theorem LoopOk.leave {alloc : Nat → Bool} {fuel : Nat} {input : Bytes} {st st' : Scan} {b : Buf}
    (h : LoopOk input st) (hr : sanitizeRound alloc fuel st = some (.leave (some st')))
    (hclose : closeAll alloc st'.buf st'.stack = some b) :
    Doc b.d ∧ ((0 : UInt8) ∉ input → (0 : UInt8) ∉ b.d) := by
  cases sanitizeRound_done hr with
  | finished hstack hd =>
      rw [hstack] at hclose
      -- all that is open is closed now, and closing tags are plain text too
      have hb := closeAll_d h.noBr hclose
      rw [hb, hd]
      refine ⟨(docPending_escaped h.pending st.chunk).closes_all, ?_⟩
      intro hin
      simp only [List.mem_append, not_or]
      refine ⟨⟨h.noNul hin, h.chunk_noNul hin⟩, ?_⟩
      intro hmem
      obtain ⟨t, ht, hzero⟩ := List.mem_flatMap.mp hmem
      have hne : t ≠ .br := by
        rintro rfl
        exact h.noBr ht
      exact nul_not_mem_effect (.closes [] hne) hzero

/-- **The output language of the sanitizer.** Whatever the input and wherever memory runs out, what a
    successful call writes is a document. If the input has no NUL (the caller passes a `strlen`), neither has the
    output, so a reader of the C string sees all of it. -/
theorem sanitize_doc (alloc : Nat → Bool) (maxOutTotal fuel : Nat) (input out : Bytes)
    (h : updateHtmlSanitizeAlloc alloc maxOutTotal fuel input = some (some out)) :
    Doc out ∧ ((0 : UInt8) ∉ input → cstr out = out) := by
  unfold updateHtmlSanitizeAlloc at h
  split at h; · cases h
  split at h; · cases h
  next b hb =>
  split at h
  · cases h
  · cases h
  next st hloop =>
  obtain ⟨b', hclose, rfl⟩ := Option.map_eq_some_iff.mp (Option.some.inj h)
  obtain ⟨st', hok, hleave⟩ := iterate_invariant (LoopOk input) (fun s t hs hr => hs.again hr) hloop (.start hb)
  obtain ⟨hdoc, hnul⟩ := hok.leave hleave hclose
  refine ⟨hdoc, ?_⟩
  intro hin
  exact cstr_eq_self (hnul hin)

theorem sanitize_doc_sample : Doc (ascii "<a href=\" HTTPS://x/?a&amp;b\"><b>c &amp; d</b></a>") := by
  have h : updateHtmlSanitizeAlloc (fun _ => true) 1048704 50
      (ascii "<A onclick=\"f()\" href=' HTTPS://x/?a&b'><b>c & d</i><script>e</script>")
        = some (some (ascii "<a href=\" HTTPS://x/?a&amp;b\"><b>c &amp; d</b></a>")) := by
    decide +kernel
  exact (sanitize_doc _ _ _ _ _ h).1

end LibUpdate
