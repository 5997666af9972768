import LibUpdate.Html.Sanitize

/-!
# `Html.Pass` — what one pass of the main loop does

`sanitizeRound_done` says it once, for termination and for the output language: the cursor moves strictly
towards the end, the text before the markup is written escaped, and the markup has one of a few effects on
the stack and on the output (`Effect`). `attrRound_pass` does the same for the attribute loop.
-/

namespace LibUpdate

/-! ## The cursor only goes forward -/

theorem skipWs_suffix (p : Bytes) : skipWs p <:+ p := List.dropWhile_suffix isspace

theorem scanToTagEnd_suffix (dq sq : Bool) (p : Bytes) : scanToTagEnd dq sq p <:+ p := by
  induction p generalizing dq sq with
  | nil => exact List.suffix_refl []
  | cons c p ih =>
      have hstep : ∀ dq sq, scanToTagEnd dq sq p <:+ c :: p := fun dq sq =>
        (ih dq sq).trans (List.suffix_cons c p)
      unfold scanToTagEnd
      repeat' split
      all_goals first
        | exact hstep _ _
        | exact List.suffix_cons c p

/-- From the `<` of a tag the cursor leaves at least the `<` behind. -/
theorem skipToTagEnd_suffix_rest (rest : Bytes) : skipToTagEnd (ch '<' :: rest) <:+ rest :=
  scanToTagEnd_suffix false false rest

theorem findCloseTagOpen_suffix {tagLc p opened : Bytes} (h : findCloseTagOpen tagLc p = some opened) :
    opened <:+ p := by
  induction p with
  | nil => cases h
  | cons c p ih =>
      have hstep : findCloseTagOpen tagLc p = some opened → opened <:+ c :: p := fun h =>
        (ih h).trans (List.suffix_cons c p)
      unfold findCloseTagOpen at h
      split at h; · cases h
      split at h; · exact hstep h
      split at h; · exact hstep h
      split at h
      · cases h
        exact List.suffix_refl _
      · exact hstep h

theorem skipDangerousContent_suffix (p tagLc : Bytes) : skipDangerousContent p tagLc <:+ p := by
  unfold skipDangerousContent
  split
  · exact List.nil_suffix
  · next h => exact (scanToTagEnd_suffix false false _).trans (findCloseTagOpen_suffix h)

theorem skipComment_suffix (p : Bytes) : skipComment p <:+ p := by
  fun_induction skipComment p with
  | case1 c₀ c₁ c₂ c h => exact ⟨[c₀, c₁, c₂], rfl⟩
  | case2 c₀ c₁ c₂ c h ih => exact ih.trans (List.suffix_cons c₀ _)
  | case3 p h => exact List.nil_suffix

/-! ## What is written -/

/-- The text that `emit_html_escaped` writes. -/
def escaped (s : Bytes) : Bytes := s.flatMap escapeByte

@[simp] theorem escaped_nil : escaped [] = [] := rfl

theorem escaped_cons (c : UInt8) (s : Bytes) : escaped (c :: s) = escapeByte c ++ escaped s := List.flatMap_cons

theorem emitHtmlEscaped_d {alloc : Nat → Bool} {b b' : Buf} {s : Bytes}
    (h : emitHtmlEscaped alloc b s = some b') : b'.d = b.d ++ escaped s := by
  induction s generalizing b with
  | nil =>
      cases h
      exact (List.append_nil _).symm
  | cons c s ih =>
      unfold emitHtmlEscaped at h
      split at h
      · cases h
      · next b₁ hb =>
        rw [ih h, bufAppend_d hb, escaped_cons, List.append_assoc]

theorem bufAppendAll_d {alloc : Nat → Bool} {b b' : Buf} {parts : List Bytes}
    (h : bufAppendAll alloc b parts = some b') : b'.d = b.d ++ parts.flatten := by
  induction parts generalizing b with
  | nil =>
      cases h
      exact (List.append_nil _).symm
  | cons s parts ih =>
      unfold bufAppendAll at h
      split at h
      · cases h
      · next b₁ hb => rw [ih h, bufAppend_d hb, List.flatten_cons, List.append_assoc]

/-- `<t>`. -/
def openTag (t : Tid) : Bytes := ascii "<" ++ tagOpen t ++ ascii ">"

/-- `</t>`. -/
def closeTag (t : Tid) : Bytes := ascii "</" ++ tagOpen t ++ ascii ">"

/-- `<a href="...">` with an escaped target. -/
def anchorTag (href : Bytes) : Bytes := ascii "<a href=\"" ++ escaped href ++ ascii "\">"

theorem length_anchorTag (href : Bytes) : (anchorTag href).length = 11 + (escaped href).length := by
  have hfixed : (ascii "<a href=\"").length = 9 ∧ (ascii "\">").length = 2 := by decide +kernel
  rw [anchorTag, List.length_append, List.length_append, hfixed.1, hfixed.2]
  omega

theorem bufEmitAnchor_d {alloc : Nat → Bool} {b b' : Buf} {href : Bytes}
    (h : bufEmitAnchor alloc b href = some b') : b'.d = b.d ++ anchorTag href := by
  unfold bufEmitAnchor at h
  split at h; · cases h
  next b₁ h₁ =>
  split at h; · cases h
  next b₂ h₂ =>
  rw [bufAppend_d h, emitHtmlEscaped_d h₂, bufAppend_d h₁]
  simp only [anchorTag, List.append_assoc]

theorem bufEmitCloseTag_d {alloc : Nat → Bool} {b b' : Buf} {t : Tid} (ht : t ≠ .br)
    (h : bufEmitCloseTag alloc b t = some b') : b'.d = b.d ++ closeTag t := by
  unfold bufEmitCloseTag at h
  rw [if_neg ht] at h
  rw [bufAppendAll_d h]
  simp [closeTag]

theorem Emitted.ofAppend_eq {r : Option Buf} {b : Buf} (h : Emitted.ofAppend r = .emitted b) : r = some b := by
  cases r with
  | none => cases h
  | some b' =>
      cases h
      rfl

/-! ## The attribute loop -/

/-- Where the attribute text ends: at `>`, at `/>`, or with its last byte. -/
inductive AttrEnd : Bytes → Prop where
  | nil : AttrEnd []
  | gt (rest : Bytes) : AttrEnd (ch '>' :: rest)
  | slashGt (rest : Bytes) : AttrEnd (ch '/' :: ch '>' :: rest)

/-- What a pass of the attribute loop does from `st`: it ends with the text; it leaves a name without a
    value behind; or it comes to a `=`, with the text ending behind it or a value to read. -/
inductive AttrPass (hrefCap : Nat) (st : AttrScan) : Round AttrScan Bytes → Prop where
  | atEnd (h : AttrEnd (skipWs st.p)) : AttrPass hrefCap st (.leave st.hrefOut)
  | bare {q : Bytes} (hend : ¬ AttrEnd (skipWs st.p))
      (hq : skipWs ((skipWs st.p).dropWhile isAttrNameChar) = q) (heq : q.head? ≠ some (ch '=')) :
      AttrPass hrefCap st (.again ⟨q, st.hrefOut⟩)
  | noValue {q : Bytes} (hq : skipWs ((skipWs st.p).dropWhile isAttrNameChar) = ch '=' :: q)
      (hvalue : skipWs q = []) : AttrPass hrefCap st (.leave st.hrefOut)
  | value {q : Bytes} (hq : skipWs ((skipWs st.p).dropWhile isAttrNameChar) = ch '=' :: q) :
      AttrPass hrefCap st (.again (attrValueRound hrefCap ((skipWs st.p).takeWhile isAttrNameChar)
        st.hrefOut (skipWs q)))

theorem attrRound_pass (hrefCap : Nat) (st : AttrScan) : AttrPass hrefCap st (attrRound hrefCap st) := by
  unfold attrRound
  split
  · next hp => exact .atEnd (hp ▸ .nil)
  next c p hp =>
  split
  · next hgt => exact .atEnd (hp ▸ hgt ▸ .gt p)
  next hgt =>
  split
  · next hslash =>
    obtain ⟨hc, hhead⟩ : c = ch '/' ∧ p.head? = some (ch '>') := by simpa using hslash
    obtain ⟨rest, rfl⟩ : ∃ rest, p = ch '>' :: rest := by
      cases p with
      | nil => cases hhead
      | cons d rest => exact ⟨rest, by rw [Option.some.inj hhead]⟩
    exact .atEnd (hp ▸ hc ▸ .slashGt rest)
  next hslash =>
  have hend : ¬ AttrEnd (skipWs st.p) := by
    rw [hp]
    rintro (_ | _ | _)
    · exact hgt rfl
    · exact hslash (by simp)
  -- from here on the pass has skipped white space and a name, perhaps an empty one
  rw [← hp]
  dsimp only
  split
  · next hq => exact .bare hend hq (by simp)
  next d q hq =>
  split
  · next hne => exact .bare hend hq (by simpa using hne)
  next heq =>
  obtain rfl : d = ch '=' := Decidable.not_not.mp heq
  split
  · next hvalue => exact .noValue hq hvalue
  · next v rest hvalue =>
    rw [← hvalue]
    exact .value hq

/-- Nothing stored yet, or a target that `href_is_safe` accepts. -/
def HrefOk (href : Bytes) : Prop := href = [] ∨ hrefIsSafe href = true

theorem attrValueRound_hrefOk {hrefCap : Nat} {name hrefOut p : Bytes} (h : HrefOk hrefOut) :
    HrefOk (attrValueRound hrefCap name hrefOut p).hrefOut := by
  unfold attrValueRound
  split; · exact h
  split
  · split; · exact h
    dsimp only
    split
    · next hsafe => exact Or.inr (Bool.and_eq_true_iff.mp hsafe).1
    · exact h
  · exact h

/-- The attribute loop stores nothing but targets that `href_is_safe` accepts. -/
theorem parseAnchorHref_hrefOk {hrefCap fuel : Nat} {text href : Bytes}
    (h : parseAnchorHref hrefCap fuel text = some href) : HrefOk href := by
  obtain ⟨st, hst, hleave⟩ := iterate_invariant (fun st : AttrScan => HrefOk st.hrefOut)
    (fun s t hs hagain => by
      have hpass := attrRound_pass hrefCap s
      rw [Option.some.inj hagain] at hpass
      cases hpass with
      | bare _ _ _ => exact hs
      | value _ => exact attrValueRound_hrefOk hs)
    h (Or.inl rfl)
  have hpass := attrRound_pass hrefCap st
  rw [Option.some.inj hleave] at hpass
  cases hpass with
  | atEnd _ => exact hst
  | noValue _ _ => exact hst

/-! ## The effect of a piece of markup -/

/-- What a piece of markup does: the stack before, the stack behind, and what is written. -/
inductive Effect : List Tid → List Tid → Bytes → Prop where
  | nothing (stack : List Tid) : Effect stack stack []
  | lt (stack : List Tid) : Effect stack stack (ascii "&lt;")
  | br (stack : List Tid) : Effect stack stack (ascii "<br>")
  | opens {t : Tid} (stack : List Tid) (hbr : t ≠ .br) (ha : t ≠ .a) :
      Effect stack (t :: stack) (openTag t)
  | anchor {href : Bytes} (stack : List Tid) (hsafe : hrefIsSafe href = true) (hne : cstr href ≠ []) :
      Effect stack (.a :: stack) (anchorTag (cstr href))
  | closes {t : Tid} (stack : List Tid) (hbr : t ≠ .br) : Effect (t :: stack) stack (closeTag t)

/-- The effect of markup that takes the loop from `st` to `st'`. -/
def HasEffect (st st' : Scan) : Prop := ∃ w, st'.buf.d = st.buf.d ++ w ∧ Effect st.stack st'.stack w

theorem HasEffect.nothing {st st' : Scan} (hstack : st'.stack = st.stack) (hbuf : st'.buf = st.buf) :
    HasEffect st st' := by
  refine ⟨[], by rw [hbuf, List.append_nil], ?_⟩
  rw [hstack]
  exact .nothing _

/-- How the pass at `<` with `rest` behind it can turn out: writing fails, or the loop goes round again
    from behind the `<`. -/
inductive MarkupDone (st : Scan) (rest : Bytes) : Round Scan (Option Scan) → Prop where
  | failed : MarkupDone st rest (.leave none)
  | again {st' : Scan} (hp : st'.p <:+ rest) (heff : HasEffect st st') :
      MarkupDone st rest (.again st')

/-- A `<` that starts no tag. -/
theorem writeLt_done (alloc : Nat → Bool) (st : Scan) (rest : Bytes) :
    MarkupDone st rest (st.writeText alloc (ascii "&lt;") rest) := by
  unfold Scan.writeText
  split
  · exact .failed
  · next buf hb => exact .again (List.suffix_refl rest) ⟨_, bufAppend_d hb, .lt _⟩

theorem closeTagRound_done (alloc : Nat → Bool) (st : Scan) (rest afterSlash : Bytes) :
    MarkupDone st rest (closeTagRound alloc st (ch '<' :: rest) afterSlash) := by
  have hend := skipToTagEnd_suffix_rest rest
  unfold closeTagRound
  dsimp only
  split; · exact writeLt_done alloc st rest
  split; · exact .again hend (.nothing rfl rfl)
  next tid _ _ =>
  -- a closing tag that does not match the innermost open one is dropped, and so is `</br>`
  split; · exact .again hend (.nothing rfl rfl)
  next hbr =>
  obtain ⟨p, stack, buf, hfits⟩ := st
  cases stack with
  | nil => exact .again hend (.nothing rfl rfl)
  | cons top stack =>
      dsimp only
      split
      · next htop =>
        subst htop
        split
        · exact .failed
        · next buf' hb => exact .again hend ⟨_, bufEmitCloseTag_d hbr hb, .closes stack hbr⟩
      · exact .again hend (.nothing rfl rfl)

/-- What `buf_emit_open_tag` writes for a tag that has content. -/
theorem bufEmitOpenTag_emitted {alloc : Nat → Bool} {fuel : Nat} {b b' : Buf} {tid : Tid} {inner : Bytes}
    (stack : List Tid) (hbr : tid ≠ .br)
    (h : bufEmitOpenTag alloc fuel b tid inner false = some (.emitted b')) :
    ∃ w, b'.d = b.d ++ w ∧ Effect stack (tid :: stack) w := by
  unfold bufEmitOpenTag at h
  rw [if_neg (by simp)] at h
  split at h
  · next ha =>
    subst ha
    split at h
    · cases h
    · next href hparse =>
      split at h
      · cases h
      · next hne =>
        -- an empty target is not written, so what is written has been tested
        have hsafe : hrefIsSafe href = true := by
          rcases parseAnchorHref_hrefOk hparse with rfl | hsafe
          · exact absurd rfl hne
          · exact hsafe
        exact ⟨_, bufEmitAnchor_d (Emitted.ofAppend_eq (Option.some.inj h)), .anchor stack hsafe hne⟩
  · next ha =>
    refine ⟨openTag tid, ?_, .opens stack hbr ha⟩
    rw [bufAppendAll_d (Emitted.ofAppend_eq (Option.some.inj h))]
    simp [openTag]

theorem bufEmitOpenTag_br {alloc : Nat → Bool} {fuel : Nat} {b b' : Buf} {inner : Bytes}
    (h : bufEmitOpenTag alloc fuel b .br inner true = some (.emitted b')) : b'.d = b.d ++ ascii "<br>" :=
  bufAppend_d (Emitted.ofAppend_eq (Option.some.inj h))

/-- Only `br` is void. -/
theorem classifyTag_isVoid {name : Bytes} {tid : Tid} {isVoid : Bool}
    (h : classifyTag name = some (tid, isVoid)) : isVoid = decide (tid = .br) := by
  unfold classifyTag at h
  repeat' split at h
  all_goals first
    | (cases h; rfl)
    | cases h

theorem openTagRound_done {alloc : Nat → Bool} {fuel : Nat} {st : Scan} {rest : Bytes}
    {r : Round Scan (Option Scan)} (h : openTagRound alloc fuel st (ch '<' :: rest) = some r) :
    MarkupDone st rest r := by
  have hend := skipToTagEnd_suffix_rest rest
  unfold openTagRound at h
  dsimp only at h
  split at h
  · cases h
    exact writeLt_done alloc st rest
  split at h
  · split at h
    -- a dangerous element is skipped with its content
    · next tlc _ =>
      cases h
      exact .again ((skipDangerousContent_suffix _ tlc).trans hend) (.nothing rfl rfl)
    · cases h
      exact .again hend (.nothing rfl rfl)
  split at h
  · cases h
    exact .again hend (.nothing rfl rfl)
  next tid isVoid hclass =>
  have hvoid := classifyTag_isVoid hclass
  split at h
  · next hbr =>
    -- `<br>` is written and nothing is pushed
    obtain rfl : tid = .br := by simpa using (Bool.and_eq_true_iff.mp hbr).2
    obtain ⟨e, he, rfl⟩ := Option.map_eq_some_iff.mp h
    cases e with
    | failed => exact .failed
    | skipped => exact .again hend (.nothing rfl rfl)
    | emitted buf => exact .again hend ⟨_, bufEmitOpenTag_br he, .br _⟩
  · next hbr =>
    have hbr : tid ≠ .br := by
      rintro rfl
      -- `br` is always void, so it has taken the branch above
      exact hbr (by rw [hvoid]; rfl)
    split at h
    · cases h
      exact .again hend (.nothing rfl rfl)
    obtain ⟨e, he, rfl⟩ := Option.map_eq_some_iff.mp h
    cases e with
    | failed => exact .failed
    | skipped => exact .again hend (.nothing rfl rfl)
    | emitted buf => exact .again hend (bufEmitOpenTag_emitted st.stack hbr he)

theorem markupRound_done {alloc : Nat → Bool} {fuel : Nat} {st : Scan} {rest : Bytes}
    {r : Round Scan (Option Scan)} (h : markupRound alloc fuel st (ch '<' :: rest) = some r) :
    MarkupDone st rest r := by
  unfold markupRound at h
  split at h
  · cases h
    exact .again ((skipComment_suffix _).trans (List.drop_suffix 3 rest)) (.nothing rfl rfl)
  split at h
  · cases h
    exact .again (skipToTagEnd_suffix_rest rest) (.nothing rfl rfl)
  split at h
  · cases h
    exact closeTagRound_done alloc st rest _
  · exact openTagRound_done h

/-! ## The pass -/

/-- The text before the next `<`. -/
def Scan.chunk (st : Scan) : Bytes := st.p.takeWhile (· != ch '<')

/-- The bytes from the next `<` on. -/
def Scan.lt (st : Scan) : Bytes := st.p.dropWhile (· != ch '<')

theorem Scan.lt_suffix (st : Scan) : st.lt <:+ st.p := List.dropWhile_suffix _

theorem Scan.head_lt {st : Scan} {c : UInt8} {rest : Bytes} (h : st.lt = c :: rest) : c = ch '<' := by
  have hhead := List.head?_dropWhile_not (· != ch '<') st.p
  rw [show st.p.dropWhile (· != ch '<') = c :: rest from h] at hhead
  simpa using hhead

/-- What a pass does: it comes to the end of the text, or to markup, unless writing fails. -/
inductive PassDone (st : Scan) : Round Scan (Option Scan) → Prop where
  | failed : PassDone st (.leave none)
  | finished {st' : Scan} (hstack : st'.stack = st.stack)
      (hd : st'.buf.d = st.buf.d ++ escaped st.chunk) : PassDone st (.leave (some st'))
  | again {st' : Scan} {rest w : Bytes} (hlt : st.lt = ch '<' :: rest) (hp : st'.p <:+ rest)
      (hd : st'.buf.d = st.buf.d ++ escaped st.chunk ++ w) (heff : Effect st.stack st'.stack w) :
      PassDone st (.again st')

/-- **What one pass of the main loop does.** -/
theorem sanitizeRound_done {alloc : Nat → Bool} {fuel : Nat} {st : Scan} {r : Round Scan (Option Scan)}
    (h : sanitizeRound alloc fuel st = some r) : PassDone st r := by
  unfold sanitizeRound at h
  split at h
  · next hp =>
    cases h
    refine .finished rfl ?_
    rw [Scan.chunk, hp]
    exact (List.append_nil _).symm
  split at h
  · cases h
    exact .failed
  next buf hbuf =>
  have hd : buf.d = st.buf.d ++ escaped st.chunk := emitHtmlEscaped_d hbuf
  split at h
  · cases h
    exact .finished rfl hd
  · next c rest hlt =>
    obtain rfl := Scan.head_lt hlt
    cases markupRound_done h with
    | failed => exact .failed
    | again hp heff =>
        obtain ⟨w, hw, heff⟩ := heff
        exact .again hlt hp (by rw [hw, ← hd]) heff

end LibUpdate
