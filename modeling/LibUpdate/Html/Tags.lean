import LibUpdate.Html.Run

/-!
# `Html.Tags` — what the main loop does at a tag, whatever follows it

A tag is `<`, a name, a text in which quotes are closed and no `>` stands outside of them, and `>`. The scan
for its end stops at that `>`, so the pass goes on behind the tag, and only the name, the attribute text and
the stack decide what is written.
-/

namespace LibUpdate

/-! ## The text of a tag -/

theorem tagnameChar_plain {c : UInt8} (h : isTagnameChar c = true) :
    isspace c = false ∧ isQuote c = false ∧ c ≠ ch '<' ∧ c ≠ ch '>' ∧ c ≠ ch '/' ∧ c ≠ ch '!' ∧ c ≠ ch '?' := by
  have hall : ∀ c, isTagnameChar c = true → isspace c = false ∧ isQuote c = false ∧ c ≠ ch '<' ∧ c ≠ ch '>'
      ∧ c ≠ ch '/' ∧ c ≠ ch '!' ∧ c ≠ ch '?' := forall_byte (by decide +kernel)
  exact hall c h

structure TagName where
  bytes : Bytes
  ne : bytes ≠ []
  chars : ∀ c ∈ bytes, isTagnameChar c = true

/-- Text in a tag: quotes are closed, and there is no `>` outside of them. -/
inductive TagText : Bytes → Prop where
  | nil : TagText []
  | byte {c : UInt8} {s : Bytes} (hq : isQuote c = false) (hgt : c ≠ ch '>') (hs : TagText s) : TagText (c :: s)
  | quoted {q : UInt8} {v s : Bytes} (hq : isQuote q = true) (hv : q ∉ v) (hs : TagText s) :
      TagText (q :: (v ++ q :: s))

/-- What stands behind the name of a tag. -/
structure TagAttrs where
  bytes : Bytes
  apart : ∀ c ∈ bytes.head?, isTagnameChar c = false
  closed : TagText bytes

def TagAttrs.none : TagAttrs := ⟨[], by simp, .nil⟩

/-- `<name attrs>`. -/
def openText (n : TagName) (attrs : TagAttrs) : Bytes := ch '<' :: (n.bytes ++ (attrs.bytes ++ [ch '>']))

/-- `</name>`. -/
def closeText (n : TagName) : Bytes := ch '<' :: ch '/' :: (n.bytes ++ [ch '>'])

/-- The name of an allowed tag. -/
def TagName.of (t : Tid) : TagName where
  bytes := tagOpen t
  ne := by cases t <;> decide
  chars := by cases t <;> decide +kernel

theorem openText_of (t : Tid) : openText (.of t) .none = openTag t := by cases t <;> rfl

theorem closeText_of (t : Tid) : closeText (.of t) = closeTag t := by cases t <;> rfl

/-! ## The scan of a tag -/

theorem scanToTagEnd_quoted {q : UInt8} (hq : isQuote q = true) {v : Bytes} (hv : q ∉ v) (rest : Bytes) :
    scanToTagEnd (q == ch '"') (q == ch '\'') (v ++ q :: rest) = scanToTagEnd false false rest := by
  have hcases : q = ch '"' ∨ q = ch '\'' := by simpa [isQuote] using hq
  induction v with
  | nil =>
      rcases hcases with rfl | rfl
      · rfl
      · rfl
  | cons c v ih =>
      rw [List.mem_cons, not_or] at hv
      rw [List.cons_append, scanToTagEnd]
      rcases hcases with rfl | rfl
      · have hne : (c != ch '"') = true := bne_iff_ne.mpr (Ne.symm hv.1)
        rw [if_pos (by decide), hne]
        exact ih hv.2
      · have hne : (c != ch '\'') = true := bne_iff_ne.mpr (Ne.symm hv.1)
        rw [if_neg (by decide), if_pos (by decide), hne]
        exact ih hv.2

/-- The scan for the end of a tag goes through its text. -/
theorem TagText.scan {s : Bytes} (h : TagText s) (rest : Bytes) :
    skipToTagEnd (s ++ rest) = skipToTagEnd rest := by
  induction h with
  | nil => rfl
  | @byte c s hq hgt _ ih =>
      obtain ⟨hdq, hsq⟩ : c ≠ ch '"' ∧ c ≠ ch '\'' := by simpa [isQuote] using hq
      rw [List.cons_append, skipToTagEnd, scanToTagEnd, if_neg (by decide), if_neg (by decide), if_neg hdq,
        if_neg hsq, if_neg hgt]
      exact ih
  | @quoted q v s hq hv _ ih =>
      have hopen : skipToTagEnd (q :: (v ++ q :: (s ++ rest)))
          = scanToTagEnd (q == ch '"') (q == ch '\'') (v ++ q :: (s ++ rest)) := by
        have hcases : q = ch '"' ∨ q = ch '\'' := by simpa [isQuote] using hq
        rcases hcases with rfl | rfl
        · rfl
        · rfl
      rw [List.cons_append, List.append_assoc, List.cons_append, hopen, scanToTagEnd_quoted hq hv]
      exact ih

theorem TagText.append {s t : Bytes} (hs : TagText s) (ht : TagText t) : TagText (s ++ t) := by
  induction hs with
  | nil => exact ht
  | byte hq hgt _ ih => exact .byte hq hgt ih
  | quoted hq hv _ ih =>
      rw [List.cons_append, List.append_assoc, List.cons_append]
      exact .quoted hq hv ih

theorem TagText.of_plain {s : Bytes} (h : ∀ c ∈ s, isQuote c = false ∧ c ≠ ch '>') : TagText s := by
  induction s with
  | nil => exact .nil
  | cons c s ih =>
      obtain ⟨hq, hgt⟩ := h c List.mem_cons_self
      exact .byte hq hgt (ih fun d hd => h d (List.mem_cons_of_mem c hd))

theorem TagName.tagText (n : TagName) : TagText n.bytes := by
  refine .of_plain fun c hc => ?_
  have hplain := tagnameChar_plain (n.chars c hc)
  exact ⟨hplain.2.1, hplain.2.2.2.1⟩

/-- The scan stops behind the `>`. -/
theorem TagText.scan_end {s : Bytes} (h : TagText s) (rest : Bytes) : skipToTagEnd (s ++ ch '>' :: rest) = rest := by
  rw [h.scan]
  rfl

theorem TagName.span (n : TagName) {rest : Bytes} (hrest : ∀ c ∈ rest.head?, isTagnameChar c = false) :
    skipWs (n.bytes ++ rest) = n.bytes ++ rest ∧ (n.bytes ++ rest).takeWhile isTagnameChar = n.bytes
      ∧ (n.bytes ++ rest).dropWhile isTagnameChar = rest := by
  refine ⟨?_, takeWhile_span n.chars hrest, dropWhile_span n.chars hrest⟩
  obtain ⟨bytes, hne, hchars⟩ := n
  cases bytes with
  | nil => exact absurd rfl hne
  | cons c s => exact dropWhile_eq_self (tagnameChar_plain (hchars c List.mem_cons_self)).1

/-- How the pass reads an opening tag. -/
structure OpenScan (n : TagName) (attrs : TagAttrs) (rest : Bytes) : Prop where
  tagEnd : skipToTagEnd (openText n attrs ++ rest) = rest
  start : skipWs ((openText n attrs ++ rest).drop 1) = n.bytes ++ (attrs.bytes ++ ch '>' :: rest)
  name : (n.bytes ++ (attrs.bytes ++ ch '>' :: rest)).takeWhile isTagnameChar = n.bytes
  inner : (n.bytes ++ (attrs.bytes ++ ch '>' :: rest)).dropWhile isTagnameChar = attrs.bytes ++ ch '>' :: rest
  span : spanTo (attrs.bytes ++ ch '>' :: rest) rest = attrs.bytes ++ [ch '>']

theorem openText_append (n : TagName) (attrs : TagAttrs) (rest : Bytes) :
    openText n attrs ++ rest = ch '<' :: (n.bytes ++ (attrs.bytes ++ ch '>' :: rest)) := by
  simp [openText]

theorem openText_scan (n : TagName) (attrs : TagAttrs) (rest : Bytes) : OpenScan n attrs rest := by
  have happ := openText_append n attrs rest
  have hhead : ∀ c ∈ (attrs.bytes ++ ch '>' :: rest).head?, isTagnameChar c = false := by
    obtain ⟨bytes, hapart, _⟩ := attrs
    cases bytes with
    | nil =>
        intro c hc
        cases hc
        decide
    | cons d s => exact hapart
  obtain ⟨hstart, hname, hinner⟩ := n.span hhead
  refine ⟨?_, ?_, hname, hinner, ?_⟩
  · have htext : TagText (ch '<' :: (n.bytes ++ attrs.bytes)) :=
      .byte (by decide) (by decide) (n.tagText.append attrs.closed)
    have hscan := htext.scan_end rest
    rwa [List.cons_append, List.append_assoc, ← happ] at hscan
  · rw [happ]
    exact hstart
  · have hlen : (attrs.bytes ++ ch '>' :: rest).length - rest.length = (attrs.bytes ++ [ch '>']).length := by
      simp only [List.length_append, List.length_cons, List.length_nil]
      omega
    rw [spanTo, hlen, show attrs.bytes ++ ch '>' :: rest = attrs.bytes ++ [ch '>'] ++ rest by simp]
    exact List.take_left

/-! ## The pass at a tag -/

theorem sanitizeRound_lt (fuel : Nat) {rest : Bytes} {stack : List Tid} {b : Buf}
    {hfits : stack.length ≤ stackSize} :
    sanitizeRound memory fuel ⟨ch '<' :: rest, stack, b, hfits⟩
      = markupRound memory fuel ⟨ch '<' :: rest, stack, b, hfits⟩ (ch '<' :: rest) := by
  have htake : (ch '<' :: rest).takeWhile (· != ch '<') = [] := List.takeWhile_cons_of_neg (by simp)
  have hdrop : (ch '<' :: rest).dropWhile (· != ch '<') = ch '<' :: rest := List.dropWhile_cons_of_neg (by simp)
  unfold sanitizeRound
  rw [if_neg (List.cons_ne_nil _ _)]
  dsimp only
  rw [htake, hdrop]
  rfl

/-- Markup that only moves the cursor. -/
theorem Steps.of_skip {rest p' : Bytes} {stack : List Tid}
    (h : ∀ b hfits, markupRound memory 0 ⟨ch '<' :: rest, stack, b, hfits⟩ (ch '<' :: rest)
      = some (.again ⟨p', stack, b, hfits⟩)) : Steps (ch '<' :: rest) stack [] p' stack := by
  intro b hfits _
  exact ⟨0, some b, hfits, .nil b, (sanitizeRound_lt 0).trans (h b hfits)⟩

theorem markupRound_open (alloc : Nat → Bool) (fuel : Nat) (st : Scan) (n : TagName) (attrs : TagAttrs)
    (rest : Bytes) :
    markupRound alloc fuel st (openText n attrs ++ rest) = openTagRound alloc fuel st (openText n attrs ++ rest) := by
  have happ := openText_append n attrs rest
  obtain ⟨c, s, hc⟩ : ∃ c s, n.bytes = c :: s := List.exists_cons_of_ne_nil n.ne
  have hplain := tagnameChar_plain (n.chars c (by rw [hc]; exact List.mem_cons_self))
  obtain ⟨_, _, _, _, hslash, hbang, hquery⟩ := hplain
  rw [hc, List.cons_append] at happ
  rw [happ]
  unfold markupRound
  have hcomment : ¬ (ascii "<!--").isPrefixOf (ch '<' :: c :: (s ++ (attrs.bytes ++ ch '>' :: rest))) = true := by
    rw [List.isPrefixOf_iff_prefix]
    intro hprefix
    exact hbang (List.cons_prefix_cons.mp (List.cons_prefix_cons.mp hprefix).2).1.symm
  rw [if_neg hcomment, if_neg (by simp [hbang, hquery]), if_neg (by simp [hslash])]

section

variable {n : TagName} {attrs : TagAttrs} {rest : Bytes} {stack : List Tid}

/-- The pass at an opening tag is one of `openTagRound`. -/
theorem Steps.of_open (fuel : Nat) {w p' : Bytes} {stack' : List Tid}
    (h : ∀ (b : Buf) (hfits : stack.length ≤ stackSize), b.d.length + w.length < halfSize →
      ∃ (r : Option Buf) (hfits' : stack'.length ≤ stackSize), Fills b w r
        ∧ openTagRound memory fuel ⟨openText n attrs ++ rest, stack, b, hfits⟩ (openText n attrs ++ rest)
          = some (r.elim (.leave none) fun b' => .again ⟨p', stack', b', hfits'⟩)) :
    Steps (openText n attrs ++ rest) stack w p' stack' := by
  have happ := openText_append n attrs rest
  intro b hfits hsize
  obtain ⟨r, hfits', hfill, hround⟩ := h b hfits hsize
  refine ⟨fuel, r, hfits', hfill, ?_⟩
  rw [happ, sanitizeRound_lt, ← happ, markupRound_open]
  exact hround

/-- An opening tag that only moves the cursor. -/
theorem Steps.of_open_skip (fuel : Nat) {p' : Bytes}
    (h : ∀ b hfits, openTagRound memory fuel ⟨openText n attrs ++ rest, stack, b, hfits⟩ (openText n attrs ++ rest)
      = some (.again ⟨p', stack, b, hfits⟩)) : Steps (openText n attrs ++ rest) stack [] p' stack :=
  .of_open fuel fun b hfits _ => ⟨some b, hfits, .nil b, h b hfits⟩

/-- An unknown tag is dropped. -/
theorem Steps.unknown (hdanger : tagIsDangerous n.bytes = false) (hclass : classifyTag n.bytes = none) :
    Steps (openText n attrs ++ rest) stack [] rest stack := by
  have hscan := openText_scan n attrs rest
  refine .of_open_skip 0 fun b hfits => ?_
  rw [openTagRound]
  dsimp only
  rw [hscan.start, hscan.name, if_neg n.ne, if_neg (by simp [hdanger]), hclass, hscan.tagEnd]

/-- At a dangerous tag the cursor goes behind the next closing tag of its name, or to the end. -/
theorem Steps.danger {tagLc : Bytes} (hname : dangerousTagLc n.bytes = some tagLc) :
    Steps (openText n attrs ++ rest) stack [] (skipDangerousContent rest tagLc) stack := by
  have hscan := openText_scan n attrs rest
  have hdanger : tagIsDangerous n.bytes = true := by
    rw [tagIsDangerous, List.any_eq_true]
    exact ⟨tagLc, List.mem_of_find?_eq_some hname, List.find?_some hname⟩
  refine .of_open_skip 0 fun b hfits => ?_
  rw [openTagRound]
  dsimp only
  rw [hscan.start, hscan.name, if_neg n.ne, if_pos hdanger, hname, hscan.tagEnd]

/-- A tag for which the stack has no room is dropped. -/
theorem Steps.full (hdanger : tagIsDangerous n.bytes = false) {t : Tid}
    (hclass : classifyTag n.bytes = some (t, false)) (hfull : stackSize ≤ stack.length) :
    Steps (openText n attrs ++ rest) stack [] rest stack := by
  have hscan := openText_scan n attrs rest
  refine .of_open_skip 0 fun b hfits => ?_
  rw [openTagRound]
  dsimp only
  rw [hscan.start, hscan.name, if_neg n.ne, if_neg (by simp [hdanger]), hclass, hscan.tagEnd]
  dsimp only
  rw [if_neg (by simp), dif_pos hfull]

/-- `<br>` is written. -/
theorem Steps.br (hdanger : tagIsDangerous n.bytes = false) (hclass : classifyTag n.bytes = some (.br, true)) :
    Steps (openText n attrs ++ rest) stack (ascii "<br>") rest stack := by
  have hscan := openText_scan n attrs rest
  refine .of_open 0 fun b hfits hsize => ⟨bufAppend memory b (ascii "<br>"), hfits, bufAppend_fills hsize, ?_⟩
  rw [openTagRound]
  dsimp only
  rw [hscan.start, hscan.name, if_neg n.ne, if_neg (by simp [hdanger]), hclass, hscan.tagEnd]
  dsimp only
  rw [if_pos (by simp), bufEmitOpenTag, if_pos (by simp), Option.map_some]
  cases bufAppend memory b (ascii "<br>") with
  | none => rfl
  | some b' => rfl

/-- Where the pass goes on behind an allowed tag that has content. -/
def Scan.afterOpen (st : Scan) (p : Bytes) (t : Tid) (hroom : st.stack.length < stackSize) :
    Emitted → Round Scan (Option Scan)
  | .failed => .leave none
  | .skipped => .again { st with p }
  | .emitted buf => .again ⟨p, t :: st.stack, buf, hroom⟩

/-- The pass at an allowed tag that has content, while the stack has room. -/
theorem openTagRound_allowed {fuel : Nat} {st : Scan} (hdanger : tagIsDangerous n.bytes = false) {t : Tid}
    (hclass : classifyTag n.bytes = some (t, false)) (hroom : st.stack.length < stackSize) {e : Emitted}
    (he : bufEmitOpenTag memory fuel st.buf t (attrs.bytes ++ [ch '>']) false = some e) :
    openTagRound memory fuel st (openText n attrs ++ rest) = some (st.afterOpen rest t hroom e) := by
  have hscan := openText_scan n attrs rest
  rw [openTagRound]
  rw [hscan.start, hscan.name, if_neg n.ne, if_neg (by simp [hdanger]), hclass, hscan.tagEnd, hscan.inner,
    hscan.span]
  dsimp only
  rw [if_neg (by simp), dif_neg (Nat.not_le.mpr hroom), he, Option.map_some]
  cases e with
  | failed => rfl
  | skipped => rfl
  | emitted buf => rfl

/-- An allowed tag without attributes to keep is written and pushed. -/
theorem Steps.open (hdanger : tagIsDangerous n.bytes = false) {t : Tid} (ha : t ≠ .a)
    (hclass : classifyTag n.bytes = some (t, false)) (hroom : stack.length < stackSize) :
    Steps (openText n attrs ++ rest) stack (openTag t) rest (t :: stack) := by
  refine .of_open 0 fun b hfits hsize => ?_
  have hparts : openTag t = [ascii "<", tagOpen t, ascii ">"].flatten := by simp [openTag]
  have hfill : Fills b (openTag t) (bufAppendAll memory b [ascii "<", tagOpen t, ascii ">"]) := by
    rw [hparts] at hsize ⊢
    exact bufAppendAll_fills hsize
  have he : bufEmitOpenTag memory 0 b t (attrs.bytes ++ [ch '>']) false
      = some (.ofAppend (bufAppendAll memory b [ascii "<", tagOpen t, ascii ">"])) := by
    rw [bufEmitOpenTag, if_neg (by simp), if_neg ha]
  refine ⟨_, hroom, hfill, ?_⟩
  rw [openTagRound_allowed hdanger hclass hroom he]
  cases bufAppendAll memory b [ascii "<", tagOpen t, ascii ">"] with
  | none => rfl
  | some b' => rfl

/-- A link with a target is written and pushed. -/
theorem Steps.link (hclass : classifyTag n.bytes = some (.a, false)) {fuel : Nat} {href : Bytes}
    (hparse : parseAnchorHref hrefBufSize fuel (attrs.bytes ++ [ch '>']) = some href) (hne : cstr href ≠ [])
    (hroom : stack.length < stackSize) :
    Steps (openText n attrs ++ rest) stack (anchorTag (cstr href)) rest (.a :: stack) := by
  have hdanger := tagIsDangerous_anchor (classifyTag_eq_anchor.mp hclass).1
  refine .of_open fuel fun b hfits hsize => ?_
  have he : bufEmitOpenTag memory fuel b .a (attrs.bytes ++ [ch '>']) false
      = some (.ofAppend (bufEmitAnchor memory b (cstr href))) := by
    rw [bufEmitOpenTag, if_neg (by simp), if_pos rfl, hparse]
    exact if_neg hne
  refine ⟨_, hroom, bufEmitAnchor_fills hsize, ?_⟩
  rw [openTagRound_allowed hdanger hclass hroom he]
  cases bufEmitAnchor memory b (cstr href) with
  | none => rfl
  | some b' => rfl

/-- A link without a target is dropped. -/
theorem Steps.noLink (hclass : classifyTag n.bytes = some (.a, false)) {fuel : Nat} {href : Bytes}
    (hparse : parseAnchorHref hrefBufSize fuel (attrs.bytes ++ [ch '>']) = some href) (hempty : cstr href = [])
    (hroom : stack.length < stackSize) : Steps (openText n attrs ++ rest) stack [] rest stack := by
  have hdanger := tagIsDangerous_anchor (classifyTag_eq_anchor.mp hclass).1
  refine .of_open_skip fuel fun b hfits => ?_
  have he : bufEmitOpenTag memory fuel b .a (attrs.bytes ++ [ch '>']) false = some .skipped := by
    rw [bufEmitOpenTag, if_neg (by simp), if_pos rfl, hparse]
    exact if_pos hempty
  rw [openTagRound_allowed hdanger hclass hroom he]
  rfl

/-! ## Closing tags -/

theorem closeText_append (n : TagName) (rest : Bytes) :
    closeText n ++ rest = ch '<' :: ch '/' :: (n.bytes ++ ch '>' :: rest) := by
  simp [closeText]

/-- How the pass reads a closing tag. -/
theorem markupRound_close (fuel : Nat) (st : Scan) :
    markupRound memory fuel st (closeText n ++ rest)
      = some (closeTagRound memory st (closeText n ++ rest) (n.bytes ++ ch '>' :: rest)) := by
  rw [closeText_append]
  unfold markupRound
  have hcomment : ¬ (ascii "<!--").isPrefixOf (ch '<' :: ch '/' :: (n.bytes ++ ch '>' :: rest)) = true := by
    rw [List.isPrefixOf_iff_prefix]
    intro hprefix
    exact absurd (List.cons_prefix_cons.mp (List.cons_prefix_cons.mp hprefix).2).1 (by decide)
  have hdecl : ¬ (((ch '<' :: ch '/' :: (n.bytes ++ ch '>' :: rest)).drop 1).head? = some (ch '!')
      || ((ch '<' :: ch '/' :: (n.bytes ++ ch '>' :: rest)).drop 1).head? = some (ch '?')) = true := by
    rw [List.drop_one, List.tail_cons, List.head?_cons]
    decide
  rw [if_neg hcomment, if_neg hdecl]
  exact if_pos rfl

theorem closeText_scan (n : TagName) (rest : Bytes) :
    skipToTagEnd (closeText n ++ rest) = rest ∧ (skipWs (n.bytes ++ ch '>' :: rest)).takeWhile isTagnameChar = n.bytes := by
  have htext : TagText (ch '<' :: ch '/' :: n.bytes) :=
    .byte (by decide) (by decide) (.byte (by decide) (by decide) n.tagText)
  have hend := htext.scan_end rest
  rw [List.cons_append, List.cons_append, ← closeText_append] at hend
  have happart : ∀ c ∈ (ch '>' :: rest).head?, isTagnameChar c = false := by
    intro c hc
    cases hc
    decide
  obtain ⟨hstart, hname, _⟩ := n.span happart
  exact ⟨hend, by rw [hstart, hname]⟩

/-- A closing tag that does not match the innermost open tag is dropped. -/
theorem Steps.stray (h : ∀ t, stack.head? = some t → ∀ void, classifyTag n.bytes = some (t, void) → t = .br) :
    Steps (closeText n ++ rest) stack [] rest stack := by
  obtain ⟨hend, hname⟩ := closeText_scan n rest
  have happ := closeText_append n rest
  rw [happ]
  refine .of_skip fun b hfits => ?_
  rw [← happ, markupRound_close, closeTagRound]
  dsimp only
  rw [hname, if_neg n.ne, hend]
  cases hclass : classifyTag n.bytes with
  | none => rfl
  | some c =>
      obtain ⟨t, void⟩ := c
      dsimp only
      by_cases hbr : t = .br
      · rw [if_pos hbr]
      rw [if_neg hbr]
      cases stack with
      | nil => rfl
      | cons top stack =>
          dsimp only
          rw [if_neg]
          rintro rfl
          exact hbr (h top rfl void hclass)

/-- The closing tag of the innermost open tag is written, and the tag is popped. -/
theorem Steps.close {t : Tid} (hbr : t ≠ .br) {void : Bool} (hclass : classifyTag n.bytes = some (t, void)) :
    Steps (closeText n ++ rest) (t :: stack) (closeTag t) rest stack := by
  obtain ⟨hend, hname⟩ := closeText_scan n rest
  have happ := closeText_append n rest
  intro b hfits hsize
  have hfits' : stack.length ≤ stackSize := Nat.le_of_succ_le hfits
  refine ⟨0, bufEmitCloseTag memory b t, hfits', bufEmitCloseTag_fills hbr hsize, ?_⟩
  rw [happ, sanitizeRound_lt, ← happ, markupRound_close, closeTagRound]
  dsimp only
  rw [hname, if_neg n.ne, hend, hclass]
  dsimp only
  rw [if_neg hbr, if_pos rfl]
  cases bufEmitCloseTag memory b t with
  | none => rfl
  | some b' => rfl

end

end LibUpdate
