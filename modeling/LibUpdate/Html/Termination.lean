import LibUpdate.Html.Pass

/-!
# `Html.Termination` — when the sanitizer returns

The main loop descends: every pass that goes round again has moved the cursor. The attribute loop of
`parse_anchor_href` does not: at a byte that starts no name, no `=` and no end of the tag its pass leaves the
cursor where it is, and the loop spins (`Stuck`). It returns exactly on the attribute texts of the grammar
`AttrText`, and the sanitizer returns exactly when every `<a` tag it parses has such a text.
-/

namespace LibUpdate

/-! ## Attribute texts -/

/-- An attribute value at the front of a text, and what follows it: quoted, quoted up to the end of the
    text, or the bytes up to white space, `>` or `/`. -/
inductive AttrValue : Bytes → Bytes → Prop where
  | quoted {q : UInt8} {v rest : Bytes} (hq : isQuote q = true) (hv : q ∉ v) :
      AttrValue (q :: v ++ q :: rest) rest
  | unclosed {q : UInt8} {v : Bytes} (hq : isQuote q = true) (hv : q ∉ v) : AttrValue (q :: v) []
  | plain {v rest : Bytes} (hquote : ∀ c ∈ (v ++ rest).head?, isQuote c = false)
      (hv : ∀ c ∈ v, isUnquotedChar c = true) (hrest : ∀ c ∈ rest.head?, isUnquotedChar c = false) :
      AttrValue (v ++ rest) rest

/-- White space and the bytes of attribute names. -/
def isSkipped (c : UInt8) : Bool := isspace c || isAttrNameChar c

/-- The attribute texts that `parse_anchor_href` gets through: white space, names and `=` with a value, up
    to the end of the tag. -/
inductive AttrText : Bytes → Prop where
  | ends {p : Bytes} (h : AttrEnd p) : AttrText p
  | skip {c : UInt8} {p : Bytes} (hc : isSkipped c = true) (hp : AttrText p) : AttrText (c :: p)
  | value {ws t rest : Bytes} (hws : ∀ c ∈ ws, isspace c = true) (ht : ∀ c ∈ t.head?, isspace c = false)
      (hvalue : AttrValue t rest) (hrest : AttrText rest) : AttrText (ch '=' :: (ws ++ t))

theorem skipAttrValue_cons (c : UInt8) (p : Bytes) :
    skipAttrValue (c :: p)
      = if isQuote c then (p.dropWhile (· != c)).drop 1 else (c :: p).dropWhile isUnquotedChar := rfl

/-- `skip_attr_value` reads the value off the grammar. -/
theorem AttrValue.skipAttrValue_eq {t rest : Bytes} (h : AttrValue t rest) : skipAttrValue t = rest := by
  cases h with
  | quoted hq hv =>
      rename_i q v
      have hdrop : (v ++ q :: rest).dropWhile (· != q) = q :: rest :=
        dropWhile_span (fun c hc => bne_iff_ne.mpr fun heq => hv (heq ▸ hc)) (by simp)
      simp [skipAttrValue, hq, hdrop]
  | unclosed hq hv =>
      rename_i q v
      have hdrop : (v ++ []).dropWhile (· != q) = [] :=
        dropWhile_span (fun c hc => bne_iff_ne.mpr fun heq => hv (heq ▸ hc)) (by simp)
      rw [List.append_nil] at hdrop
      simp [skipAttrValue, hq, hdrop]
  | plain hquote hv hrest =>
      rename_i v
      have hdrop := dropWhile_span hv hrest
      cases hp : v ++ rest with
      | nil =>
          rw [hp] at hdrop
          exact hdrop
      | cons c p =>
          rw [hp] at hdrop hquote
          rwa [skipAttrValue_cons, if_neg (by rw [hquote c rfl]; exact Bool.false_ne_true)]

/-- Every text starts with a value. -/
theorem attrValue_skipAttrValue (t : Bytes) : AttrValue t (skipAttrValue t) := by
  cases t with
  | nil => exact AttrValue.plain (v := []) (by simp) (by simp) (by simp)
  | cons c p =>
      cases hq : isQuote c with
      | true =>
          have hv : c ∉ p.takeWhile (· != c) := by
            intro hmem
            have := forall_takeWhile (· != c) p c hmem
            simp at this
          have hsplit := List.takeWhile_append_dropWhile (p := (· != c)) (l := p)
          cases hd : p.dropWhile (· != c) with
          | nil =>
              rw [hd, List.append_nil] at hsplit
              have h := AttrValue.unclosed hq hv
              rw [hsplit] at h
              simpa [skipAttrValue, hq, hd] using h
          | cons d rest =>
              have hhead := head?_dropWhile (· != c) p d (by rw [hd]; rfl)
              have hd' : d = c := by simpa using hhead
              subst c
              have h : AttrValue (d :: p.takeWhile (· != d) ++ d :: rest) rest := .quoted hq hv
              rw [List.cons_append, ← hd, hsplit] at h
              simpa [skipAttrValue, hq, hd] using h
      | false =>
          have hsplit := List.takeWhile_append_dropWhile (p := isUnquotedChar) (l := c :: p)
          have h : AttrValue ((c :: p).takeWhile isUnquotedChar ++ (c :: p).dropWhile isUnquotedChar)
              ((c :: p).dropWhile isUnquotedChar) := .plain
            (by rw [hsplit]; intro d hd; cases hd; exact hq)
            (forall_takeWhile isUnquotedChar (c :: p)) (head?_dropWhile isUnquotedChar (c :: p))
          rw [hsplit] at h
          rwa [skipAttrValue_cons, if_neg (by rw [hq]; exact Bool.false_ne_true)]

/-! ## The cursor in an attribute text

Going on by white space, by a name or by `=` and a value does not change whether the text is in the
grammar. -/

theorem isSkipped_eq : isSkipped (ch '=') = false := by decide

theorem not_attrEnd_of_isSkipped {c : UInt8} {p : Bytes} (hc : isSkipped c = true) : ¬ AttrEnd (c :: p) := by
  intro h
  cases h with
  | gt => exact absurd hc (by decide)
  | slashGt => exact absurd hc (by decide)

theorem attrText_skip_iff {c : UInt8} {p : Bytes} (hc : isSkipped c = true) :
    AttrText (c :: p) ↔ AttrText p := by
  constructor
  · intro h
    cases h with
    | ends h => exact absurd h (not_attrEnd_of_isSkipped hc)
    | skip _ hp => exact hp
    | value => rw [isSkipped_eq] at hc; cases hc
  · exact .skip hc

theorem attrText_dropWhile_iff {test : UInt8 → Bool} (htest : ∀ c, test c = true → isSkipped c = true)
    (p : Bytes) : AttrText (p.dropWhile test) ↔ AttrText p := by
  induction p with
  | nil => exact Iff.rfl
  | cons c p ih =>
      cases hc : test c with
      | true =>
          rw [List.dropWhile_cons_of_pos hc, ih]
          exact (attrText_skip_iff (htest c hc)).symm
      | false => rw [List.dropWhile_cons_of_neg (by simp [hc])]

theorem attrText_skipWs_iff (p : Bytes) : AttrText (skipWs p) ↔ AttrText p :=
  attrText_dropWhile_iff (fun c hc => by simp [isSkipped, hc]) p

theorem attrText_value_iff (q : Bytes) :
    AttrText (ch '=' :: q) ↔ AttrText (skipAttrValue (skipWs q)) := by
  constructor
  · intro h
    cases h with
    | ends h => cases h
    | skip hc _ => rw [isSkipped_eq] at hc; cases hc
    | value hws ht hvalue hrest =>
        rwa [skipWs, dropWhile_span hws ht, hvalue.skipAttrValue_eq]
  · intro h
    have hsplit : q.takeWhile isspace ++ skipWs q = q := List.takeWhile_append_dropWhile
    rw [← hsplit]
    exact .value (forall_takeWhile isspace q) (head?_dropWhile isspace q) (attrValue_skipAttrValue _) h

theorem takeAttrValue_snd (p : Bytes) : (takeAttrValue p).2 = skipAttrValue p := by
  cases p with
  | nil => rfl
  | cons c p =>
      rw [skipAttrValue_cons, takeAttrValue]
      split <;> rfl

/-- Whatever the attribute is called, the cursor goes behind its value. -/
theorem attrValueRound_p (hrefCap : Nat) (name hrefOut p : Bytes) :
    (attrValueRound hrefCap name hrefOut p).p = skipAttrValue p := by
  unfold attrValueRound
  split; · rfl
  split
  · split; · rfl
    dsimp only
    split
    · exact takeAttrValue_snd p
    · exact takeAttrValue_snd p
  · rfl

/-! ## The attribute loop -/

/-- A byte at which the attribute loop does not move. -/
def Stuck (p : Bytes) : Prop :=
  ∃ c rest, p = c :: rest ∧ isSkipped c = false ∧ c ≠ ch '=' ∧ ¬ AttrEnd p

theorem Stuck.not_attrText {p : Bytes} (h : Stuck p) : ¬ AttrText p := by
  obtain ⟨c, rest, rfl, hc, heq, hend⟩ := h
  intro htext
  cases htext with
  | ends h => exact hend h
  | skip hc' _ => rw [hc] at hc'; cases hc'
  | value => exact heq rfl

theorem skipAttrValue_le (p : Bytes) : (skipAttrValue p).length ≤ p.length := by
  cases p with
  | nil => exact Nat.le_refl _
  | cons c p =>
      rw [skipAttrValue_cons]
      split
      · have := (List.dropWhile_sublist (l := p) (· != c)).length_le
        rw [List.length_drop, List.length_cons]
        omega
      · exact (List.dropWhile_sublist _).length_le

/-- From a stuck cursor a pass goes round again to the same cursor. -/
theorem Stuck.again {hrefCap : Nat} {st st' : AttrScan} (h : Stuck st.p)
    (hr : attrRound hrefCap st = .again st') : st'.p = st.p := by
  obtain ⟨c, rest, hp, hc, heq, _⟩ := h
  obtain ⟨hspace, hname⟩ : isspace c = false ∧ isAttrNameChar c = false := by simpa [isSkipped] using hc
  have hfix : skipWs ((skipWs st.p).dropWhile isAttrNameChar) = st.p := by
    have hws : skipWs (c :: rest) = c :: rest := dropWhile_eq_self hspace
    rw [hp, hws, dropWhile_eq_self hname, hws]
  have hpass := attrRound_pass hrefCap st
  rw [hr] at hpass
  cases hpass with
  | bare _ hq _ => exact hq.symm.trans hfix
  | value hq =>
      rw [hfix, hp] at hq
      exact absurd (List.cons.inj hq).1 heq

/-- **A pass of the attribute loop that goes round again** keeps the grammar, and moves the cursor unless
    it is stuck. -/
theorem attrRound_again {hrefCap : Nat} {st st' : AttrScan} (hr : attrRound hrefCap st = .again st') :
    (AttrText st'.p ↔ AttrText st.p) ∧ (st'.p.length < st.p.length ∨ Stuck st.p) := by
  have hname : ∀ c, isAttrNameChar c = true → isSkipped c = true := fun c hc => by simp [isSkipped, hc]
  have hws₁ : (skipWs st.p).Sublist st.p := List.dropWhile_sublist isspace
  have hdrop : ((skipWs st.p).dropWhile isAttrNameChar).Sublist (skipWs st.p) := List.dropWhile_sublist _
  have hws₂ := List.dropWhile_sublist (l := (skipWs st.p).dropWhile isAttrNameChar) isspace
  -- white space and a name may be skipped without leaving the grammar
  have htext : AttrText (skipWs ((skipWs st.p).dropWhile isAttrNameChar)) ↔ AttrText st.p := by
    rw [attrText_skipWs_iff, attrText_dropWhile_iff hname, attrText_skipWs_iff]
  have hpass := attrRound_pass hrefCap st
  rw [hr] at hpass
  cases hpass with
  | bare hend hq heq =>
      rename_i q
      rw [hq] at htext
      refine ⟨htext, ?_⟩
      by_cases hlt : q.length < st.p.length
      · exact Or.inl hlt
      · -- nothing was skipped, so the text starts with none of the bytes the pass looks for
        right
        rw [← skipWs, hq] at hws₂
        have h₁ := hws₁.length_le
        have h₂ := hdrop.length_le
        have h₃ := hws₂.length_le
        have hfix : skipWs st.p = st.p := hws₁.eq_of_length (by omega)
        rw [hfix] at hdrop hws₂ hend
        have hfix' : st.p.dropWhile isAttrNameChar = st.p := hdrop.eq_of_length (by rw [hfix] at h₂ h₃; omega)
        rw [hfix'] at hws₂
        have hfix'' : q = st.p := hws₂.eq_of_length (by omega)
        rw [hfix''] at heq
        cases hp : st.p with
        | nil =>
            rw [hp] at hend
            exact absurd .nil hend
        | cons c rest =>
            rw [hp] at hfix hfix' hend heq
            refine ⟨c, rest, rfl, ?_, by simpa using heq, hend⟩
            simp [isSkipped, head_of_dropWhile_eq_self hfix, head_of_dropWhile_eq_self hfix']
  | value hq =>
      rename_i q
      rw [attrValueRound_p]
      rw [hq, attrText_value_iff] at htext
      refine ⟨htext, Or.inl ?_⟩
      -- at least the `=` is consumed
      have h₁ := hws₁.length_le
      have h₂ := hdrop.length_le
      have h₃ := hws₂.length_le
      rw [← skipWs, hq, List.length_cons] at h₃
      have h₄ := skipAttrValue_le (skipWs q)
      have h₅ := (skipWs_suffix q).length_le
      omega

/-- The attribute loop is left only on a text of the grammar. -/
theorem attrRound_leave {hrefCap : Nat} {st : AttrScan} {href : Bytes}
    (hr : attrRound hrefCap st = .leave href) : AttrText st.p := by
  have hname : ∀ c, isAttrNameChar c = true → isSkipped c = true := fun c hc => by simp [isSkipped, hc]
  have hpass := attrRound_pass hrefCap st
  rw [hr] at hpass
  rw [← attrText_skipWs_iff]
  cases hpass with
  | atEnd h => exact .ends h
  | noValue hq hvalue =>
      rw [← attrText_dropWhile_iff hname, ← attrText_skipWs_iff, hq, attrText_value_iff, hvalue]
      exact .ends .nil

theorem attrRound_stable (hrefCap : Nat) :
    Stable fun _ st => some (attrRound hrefCap st) := fun _ _ _ _ _ hr => hr

theorem parseAnchorHref_stable (hrefCap : Nat) : Stable (parseAnchorHref hrefCap) := by
  intro m n text href hmn h
  exact (attrRound_stable hrefCap).whileLoop m n _ href hmn h

/-- **`parse_anchor_href` returns exactly on the attribute texts of the grammar.** -/
theorem parseAnchorHref_returns_iff (hrefCap : Nat) (text : Bytes) :
    Returns (parseAnchorHref hrefCap) text ↔ AttrText text := by
  constructor
  · rintro ⟨fuel, href, h⟩
    -- outside the grammar every pass stays outside, and the loop is only left inside
    apply Classical.byContradiction
    intro hnot
    obtain ⟨st, hst, hleave⟩ := iterate_invariant (fun st : AttrScan => ¬ AttrText st.p)
      (fun s t hs hagain => by
        rwa [(attrRound_again (Option.some.inj hagain)).1])
      h (by rwa [attrText_skipWs_iff])
    exact hst (attrRound_leave (Option.some.inj hleave))
  · intro h
    -- inside the grammar the cursor is never stuck, so its distance to the end is a variant
    obtain ⟨fuel, href, hloop⟩ := Returns.of_variant (attrRound_stable hrefCap)
      (fun st => AttrText st.p) (fun st => st.p.length)
      (fun s hs => ⟨0, _, rfl, fun t ht => by
        obtain ⟨htext, hmove⟩ := attrRound_again ht
        exact ⟨htext.mpr hs, hmove.resolve_right fun hstuck => hstuck.not_attrText hs⟩⟩)
      (s := ⟨skipWs text, []⟩) ((attrText_skipWs_iff text).mpr h)
    exact ⟨fuel, href, hloop⟩

/-! ## The main loop -/

/-- The attribute text that the pass from `st` parses: it comes to an `<a` tag, and the stack has room. -/
def Scan.linkText (st : Scan) : Option Bytes :=
  let q := skipWs (st.lt.drop 1)
  if tagNameEqLc (q.takeWhile isTagnameChar) (ascii "a") && st.stack.length < stackSize then
    some (spanTo (q.dropWhile isTagnameChar) (skipToTagEnd st.lt))
  else none

/-- The pass from `st` has no attribute text to parse that is outside the grammar, or writing fails before
    it comes to it. -/
def LinkOk (alloc : Nat → Bool) (st : Scan) : Prop :=
  (emitHtmlEscaped alloc st.buf st.chunk).isSome → ∀ text, st.linkText = some text → AttrText text

theorem bufEmitOpenTag_stable {alloc : Nat → Bool} {b : Buf} {tid : Tid} {inner : Bytes} {isVoid : Bool}
    {m n : Nat} (hmn : m ≤ n) {e : Emitted} (h : bufEmitOpenTag alloc m b tid inner isVoid = some e) :
    bufEmitOpenTag alloc n b tid inner isVoid = some e := by
  unfold bufEmitOpenTag at h ⊢
  split at h
  · next hvoid => rwa [if_pos hvoid]
  next hvoid =>
  rw [if_neg hvoid]
  split at h
  · next ha =>
    rw [if_pos ha]
    split at h
    · cases h
    · next href hparse => rwa [parseAnchorHref_stable hrefBufSize m n inner href hmn hparse]
  · next ha => rwa [if_neg ha]

/-- Only an `<a` tag has an attribute text to parse. -/
theorem bufEmitOpenTag_eq_none {alloc : Nat → Bool} {fuel : Nat} {b : Buf} {tid : Tid} {inner : Bytes}
    {isVoid : Bool} :
    bufEmitOpenTag alloc fuel b tid inner isVoid = none
      ↔ tid = .a ∧ parseAnchorHref hrefBufSize fuel inner = none := by
  unfold bufEmitOpenTag
  split
  · next hvoid =>
    obtain rfl : tid = .br := by simpa using (Bool.and_eq_true_iff.mp hvoid).2
    simp
  split
  · next ha =>
    split
    · next hparse => simp [ha, hparse]
    · next href hparse => split <;> simp [hparse]
  · next ha => simp [ha]

theorem openTagRound_stable {alloc : Nat → Bool} {st : Scan} {lt : Bytes} {m n : Nat} (hmn : m ≤ n)
    {r : Round Scan (Option Scan)} (h : openTagRound alloc m st lt = some r) :
    openTagRound alloc n st lt = some r := by
  unfold openTagRound at h ⊢
  dsimp only at h ⊢
  split at h
  · next hname => rwa [if_pos hname]
  next hname =>
  rw [if_neg hname]
  split at h
  · next hdanger => rwa [if_pos hdanger]
  next hdanger =>
  rw [if_neg hdanger]
  split at h
  · next hclass => exact h
  next tid isVoid hclass =>
  split at h
  · next hbr =>
    rw [if_pos hbr]
    obtain ⟨e, he, hr⟩ := Option.map_eq_some_iff.mp h
    rw [bufEmitOpenTag_stable hmn he, Option.map_some, hr]
  next hbr =>
  rw [if_neg hbr]
  split at h
  · next hfull => rwa [dif_pos hfull]
  · next hfull =>
    rw [dif_neg hfull]
    obtain ⟨e, he, hr⟩ := Option.map_eq_some_iff.mp h
    rw [bufEmitOpenTag_stable hmn he, Option.map_some, hr]

theorem sanitizeRound_stable (alloc : Nat → Bool) : Stable (sanitizeRound alloc) := by
  intro m n st r hmn h
  unfold sanitizeRound at h ⊢
  split at h
  · next hp => rwa [if_pos hp]
  next hp =>
  rw [if_neg hp]
  split at h
  · next hbuf => exact h
  next buf hbuf =>
  split at h
  · next hlt => exact h
  next c rest hlt =>
  unfold markupRound at h ⊢
  split at h
  · next hcomment => rwa [if_pos hcomment]
  next hcomment =>
  rw [if_neg hcomment]
  split at h
  · next hdecl => rwa [if_pos hdecl]
  next hdecl =>
  rw [if_neg hdecl]
  split at h
  · next hclose => rwa [if_pos hclose]
  next hclose =>
  rw [if_neg hclose]
  exact openTagRound_stable hmn h

theorem tagNameEqLc_iff {name lit : Bytes} : tagNameEqLc name lit = true ↔ name.map asciiLowerUc = lit := by
  simp [tagNameEqLc]

theorem tagIsDangerous_anchor {name : Bytes} (h : tagNameEqLc name (ascii "a") = true) :
    tagIsDangerous name = false := by
  have htags : ∀ lit ∈ dangerTags, ascii "a" ≠ lit := by decide
  rw [tagNameEqLc_iff] at h
  rw [tagIsDangerous, List.any_eq_false]
  intro lit hlit hname
  rw [tagNameEqLc_iff, h] at hname
  exact htags lit hlit hname

theorem classifyTag_eq_anchor {name : Bytes} {isVoid : Bool} :
    classifyTag name = some (.a, isVoid) ↔ tagNameEqLc name (ascii "a") = true ∧ isVoid = false := by
  constructor
  · intro h
    have hvoid := classifyTag_isVoid h
    unfold classifyTag at h
    repeat' split at h
    all_goals first
      | (cases h; done)
      | exact ⟨by assumption, hvoid⟩
  · rintro ⟨h, rfl⟩
    rw [tagNameEqLc_iff] at h
    have hother : ∀ lit, lit ≠ ascii "a" → tagNameEqLc name lit = false := by
      intro lit hlit
      rw [Bool.eq_false_iff, ne_eq, tagNameEqLc_iff, h]
      intro heq
      exact hlit heq.symm
    unfold classifyTag
    rw [if_neg (by rw [hother _ (by decide)]; decide), if_neg (by rw [hother _ (by decide)]; decide),
      if_neg (by rw [hother _ (by decide)]; decide), if_neg (by rw [hother _ (by decide)]; decide),
      if_neg (by rw [hother _ (by decide)]; decide), if_neg (by rw [hother _ (by decide)]; decide),
      if_neg (by rw [hother _ (by decide)]; decide), if_neg (by rw [hother _ (by decide)]; decide),
      if_pos (tagNameEqLc_iff.mpr h)]

/-- The pass at an opening tag does not come back only from an `<a` tag it parses. -/
theorem openTagRound_eq_none {alloc : Nat → Bool} {fuel : Nat} {st : Scan} {lt : Bytes} :
    openTagRound alloc fuel st lt = none
      ↔ tagNameEqLc ((skipWs (lt.drop 1)).takeWhile isTagnameChar) (ascii "a") = true
        ∧ st.stack.length < stackSize
        ∧ parseAnchorHref hrefBufSize fuel
            (spanTo ((skipWs (lt.drop 1)).dropWhile isTagnameChar) (skipToTagEnd lt)) = none := by
  constructor
  · intro h
    unfold openTagRound at h
    dsimp only at h
    split at h; · cases h
    split at h
    · split at h <;> cases h
    split at h; · cases h
    next tid isVoid hclass =>
    split at h
    · next hbr =>
      have hnone := Option.map_eq_none_iff.mp h
      obtain ⟨rfl, _⟩ := bufEmitOpenTag_eq_none.mp hnone
      simp at hbr
    split at h; · cases h
    next hfull =>
    -- every other way through the pass has returned above
    have hnone := Option.map_eq_none_iff.mp h
    obtain ⟨rfl, hparse⟩ := bufEmitOpenTag_eq_none.mp hnone
    exact ⟨(classifyTag_eq_anchor.mp hclass).1, by omega, hparse⟩
  · rintro ⟨hname, hroom, hparse⟩
    -- `a` is a name, is not dangerous and is classified as `a`, so the pass comes to the attributes
    have hne : (skipWs (lt.drop 1)).takeWhile isTagnameChar ≠ [] := by
      intro heq
      rw [heq] at hname
      exact absurd hname (by decide)
    unfold openTagRound
    dsimp only
    rw [if_neg hne, if_neg (by rw [tagIsDangerous_anchor hname]; exact Bool.false_ne_true),
      classifyTag_eq_anchor.mpr ⟨hname, rfl⟩]
    dsimp only
    rw [if_neg (by simp), dif_neg (by omega), Option.map_eq_none_iff]
    exact bufEmitOpenTag_eq_none.mpr ⟨rfl, hparse⟩

/-- Behind a byte that is neither white space nor part of a tag name there is no tag name. -/
theorem tagName_eq_nil {c : UInt8} {p : Bytes} (hspace : isspace c = false) (hname : isTagnameChar c = false) :
    (skipWs (c :: p)).takeWhile isTagnameChar = [] := by
  rw [skipWs, dropWhile_eq_self hspace, List.takeWhile_cons_of_neg (by simp [hname])]

/-- A `<` with one of `!`, `?` and `/` behind it opens no element. -/
theorem tagName_of_head {p : Bytes} {c : UInt8} (hp : p.head? = some c)
    (hc : c = ch '!' ∨ c = ch '?' ∨ c = ch '/') :
    tagNameEqLc ((skipWs p).takeWhile isTagnameChar) (ascii "a") = false := by
  obtain ⟨rest, rfl⟩ : ∃ rest, p = c :: rest := by
    cases p with
    | nil => cases hp
    | cons d rest => exact ⟨rest, by rw [Option.some.inj hp]⟩
  rw [tagName_eq_nil]
  · decide
  · rcases hc with rfl | rfl | rfl <;> decide
  · rcases hc with rfl | rfl | rfl <;> decide

theorem openTagRound_ne_none {alloc : Nat → Bool} {fuel : Nat} {st : Scan} {lt : Bytes} {c : UInt8}
    (hp : (lt.drop 1).head? = some c) (hc : c = ch '!' ∨ c = ch '?' ∨ c = ch '/') :
    openTagRound alloc fuel st lt ≠ none := by
  intro h
  have hname := (openTagRound_eq_none.mp h).1
  rw [tagName_of_head hp hc] at hname
  cases hname

theorem markupRound_eq_none {alloc : Nat → Bool} {fuel : Nat} {st : Scan} {lt : Bytes} :
    markupRound alloc fuel st lt = none ↔ openTagRound alloc fuel st lt = none := by
  unfold markupRound
  split
  · next hcomment =>
    obtain ⟨rest, rfl⟩ := List.isPrefixOf_iff_prefix.mp hcomment
    simpa using openTagRound_ne_none (c := ch '!') rfl (Or.inl rfl)
  split
  · next hdecl =>
    rcases Bool.or_eq_true_iff.mp hdecl with h | h
    · simpa using openTagRound_ne_none (of_decide_eq_true h) (Or.inl rfl)
    · simpa using openTagRound_ne_none (of_decide_eq_true h) (Or.inr (Or.inl rfl))
  split
  · next hslash => simpa using openTagRound_ne_none hslash (Or.inr (Or.inr rfl))
  · exact Iff.rfl

theorem linkText_of_lt_nil {st : Scan} (h : st.lt = []) : st.linkText = none := by
  unfold Scan.linkText
  rw [h]
  rfl

theorem linkText_eq_some {st : Scan} {text : Bytes} :
    st.linkText = some text
      ↔ tagNameEqLc ((skipWs (st.lt.drop 1)).takeWhile isTagnameChar) (ascii "a") = true
        ∧ st.stack.length < stackSize
        ∧ spanTo ((skipWs (st.lt.drop 1)).dropWhile isTagnameChar) (skipToTagEnd st.lt) = text := by
  unfold Scan.linkText
  dsimp only
  split
  · next h =>
    obtain ⟨hname, hroom⟩ := Bool.and_eq_true_iff.mp h
    exact ⟨fun htext => ⟨hname, of_decide_eq_true hroom, Option.some.inj htext⟩,
      fun htext => congrArg some htext.2.2⟩
  · next h =>
    refine iff_of_false (by simp) ?_
    rintro ⟨hname, hroom, _⟩
    exact h (Bool.and_eq_true_iff.mpr ⟨hname, decide_eq_true hroom⟩)

/-- A pass does not come back exactly where it has written the text before an `<a` tag and the attribute loop
    does not come back. -/
theorem sanitizeRound_eq_none {alloc : Nat → Bool} {fuel : Nat} {st : Scan} :
    sanitizeRound alloc fuel st = none
      ↔ (emitHtmlEscaped alloc st.buf st.chunk).isSome
        ∧ ∃ text, st.linkText = some text ∧ parseAnchorHref hrefBufSize fuel text = none := by
  have hnone : st.lt = [] → ¬ ∃ text, st.linkText = some text ∧ parseAnchorHref hrefBufSize fuel text = none := by
    rintro hlt ⟨text, htext, _⟩
    rw [linkText_of_lt_nil hlt] at htext
    cases htext
  unfold sanitizeRound
  split
  · next hp =>
    refine iff_of_false (by simp) fun h => hnone ?_ h.2
    rw [Scan.lt, hp]
    rfl
  rw [show st.p.takeWhile (· != ch '<') = st.chunk from rfl,
    show st.p.dropWhile (· != ch '<') = st.lt from rfl]
  cases hbuf : emitHtmlEscaped alloc st.buf st.chunk with
  | none => simp
  | some buf =>
      dsimp only
      split
      · next hlt => exact iff_of_false (by simp) fun h => hnone hlt h.2
      · next c rest hlt =>
        rw [markupRound_eq_none, openTagRound_eq_none, ← hlt]
        constructor
        · rintro ⟨hname, hroom, hparse⟩
          exact ⟨rfl, _, linkText_eq_some.mpr ⟨hname, hroom, rfl⟩, hparse⟩
        · rintro ⟨_, text, htext, hparse⟩
          obtain ⟨hname, hroom, rfl⟩ := linkText_eq_some.mp htext
          exact ⟨hname, hroom, hparse⟩

theorem returns_iff_ne_none {σ α : Type} {f : Nat → σ → Option α} {s : σ} :
    Returns f s ↔ ∃ fuel, f fuel s ≠ none := by
  simp only [Returns, Option.ne_none_iff_exists']

/-- **A pass of the main loop returns exactly where it has no attribute text outside the grammar to
    parse.** -/
theorem sanitizeRound_returns_iff {alloc : Nat → Bool} {st : Scan} :
    Returns (sanitizeRound alloc) st ↔ LinkOk alloc st := by
  rw [returns_iff_ne_none]
  simp only [ne_eq, sanitizeRound_eq_none]
  constructor
  · rintro ⟨fuel, h⟩ hwritten text htext
    rw [← parseAnchorHref_returns_iff hrefBufSize, returns_iff_ne_none]
    exact ⟨fuel, fun hnone => h ⟨hwritten, text, htext, hnone⟩⟩
  · intro h
    by_cases hwritten : (emitHtmlEscaped alloc st.buf st.chunk).isSome
    · cases htext : st.linkText with
      | none => exact ⟨0, by rintro ⟨_, text, h', _⟩; cases h'⟩
      | some text =>
          obtain ⟨fuel, hfuel⟩ := returns_iff_ne_none.mp
            ((parseAnchorHref_returns_iff hrefBufSize text).mpr (h hwritten text htext))
          refine ⟨fuel, ?_⟩
          rintro ⟨_, text', htext', hnone⟩
          cases htext'
          exact hfuel hnone
    · exact ⟨0, fun hc => hwritten hc.1⟩

/-! ## The sanitizer -/

/-- A pass of the main loop that the call comes to. -/
def ComesTo (alloc : Nat → Bool) (maxOutTotal : Nat) (input : Bytes) (st : Scan) : Prop :=
  input.length ≤ htmlDescMaxIn ∧ ∃ b, bufInit alloc maxOutTotal = some b
    ∧ Reaches (sanitizeRound alloc) (.start input b) st

/-- The main loop descends. -/
theorem sanitizeRound_descends {alloc : Nat → Bool} {fuel : Nat} {st st' : Scan}
    (h : sanitizeRound alloc fuel st = some (.again st')) : st'.p.length < st.p.length := by
  cases sanitizeRound_done h with
  | again hlt hp _ _ =>
      have h₁ := st.lt_suffix.length_le
      have h₂ := hp.length_le
      rw [hlt, List.length_cons] at h₁
      omega

theorem updateHtmlSanitizeAlloc_returns_iff (alloc : Nat → Bool) (maxOutTotal : Nat) (input : Bytes) :
    Returns (updateHtmlSanitizeAlloc alloc maxOutTotal) input
      ↔ ∀ st, ComesTo alloc maxOutTotal input st → LinkOk alloc st := by
  have hloop : ∀ b, Returns (whileLoop (sanitizeRound alloc)) (.start input b)
      ↔ ∀ st, Reaches (sanitizeRound alloc) (.start input b) st → LinkOk alloc st := by
    intro b
    -- the main loop descends by itself, so only its passes can fail to come back
    rw [Returns.whileLoop_iff (sanitizeRound_stable alloc) (fun st => st.p.length)
      fun _ _ _ => sanitizeRound_descends]
    simp only [sanitizeRound_returns_iff]
  by_cases hargs : (maxOutTotal = 0 || input.length > htmlDescMaxIn) = true
  · -- refused at once
    refine iff_of_true ⟨0, none, if_pos hargs⟩ ?_
    rintro st ⟨hlen, b, hb, _⟩
    have hpos := bufInit_pos hb
    simp only [Bool.or_eq_true, decide_eq_true_eq] at hargs
    omega
  have hlen : input.length ≤ htmlDescMaxIn := by
    simp only [Bool.or_eq_true, decide_eq_true_eq, not_or] at hargs
    omega
  cases hb : bufInit alloc maxOutTotal with
  | none =>
      refine iff_of_true ⟨0, none, ?_⟩ ?_
      · rw [updateHtmlSanitizeAlloc, if_neg hargs, hb]
      · rintro st ⟨_, b, hb', _⟩
        cases hb.symm.trans hb'
  | some b =>
      -- behind the loop nothing can hang: closing the open tags is bounded by the stack
      have hcall : ∀ fuel, updateHtmlSanitizeAlloc alloc maxOutTotal fuel input = none
          ↔ whileLoop (sanitizeRound alloc) fuel (.start input b) = none := by
        intro fuel
        rw [updateHtmlSanitizeAlloc, if_neg hargs, hb]
        dsimp only
        split <;> simp [*]
      have hreturns : Returns (updateHtmlSanitizeAlloc alloc maxOutTotal) input
          ↔ Returns (whileLoop (sanitizeRound alloc)) (.start input b) := by
        rw [returns_iff_ne_none, returns_iff_ne_none]
        exact exists_congr fun fuel => not_congr (hcall fuel)
      rw [hreturns, hloop b]
      constructor
      · rintro h st ⟨_, b', hb', hreach⟩
        cases hb.symm.trans hb'
        exact h st hreach
      · intro h st hst
        exact h st ⟨hlen, b, hb, hst⟩

/-- **When the sanitizer returns.** The main loop moves the cursor in every pass. The attribute loop does so
    except where it is stuck, and then it stays there. The call returns exactly when every pass it comes to
    has an attribute text of the grammar, if it parses one. -/
theorem sanitize_terminates_iff (alloc : Nat → Bool) (maxOutTotal : Nat) (input : Bytes) :
    (∀ fuel st st', sanitizeRound alloc fuel st = some (.again st') → st'.p.length < st.p.length)
      ∧ (∀ hrefCap st st', attrRound hrefCap st = .again st' →
          (st'.p.length < st.p.length ↔ ¬ Stuck st.p) ∧ (Stuck st.p → st'.p = st.p))
      ∧ (Returns (updateHtmlSanitizeAlloc alloc maxOutTotal) input
          ↔ ∀ st, ComesTo alloc maxOutTotal input st → LinkOk alloc st) := by
  refine ⟨?_, ?_, updateHtmlSanitizeAlloc_returns_iff alloc maxOutTotal input⟩
  · intro fuel st st' h
    exact sanitizeRound_descends h
  · intro hrefCap st st' h
    refine ⟨⟨fun hlt hstuck => ?_, (attrRound_again h).2.resolve_right⟩, fun hstuck => hstuck.again h⟩
    rw [hstuck.again h] at hlt
    exact Nat.lt_irrefl _ hlt

/-! ## An unquoted link target with a slash

The value of `<a href=http://x>` ends at the first `/`, and the attribute loop is stuck there. -/

def unquotedLink : Bytes := ascii "<a href=http://x>"

theorem not_attrText_unquoted : ¬ AttrText (ascii " href=http://x>") := by
  have hround : attrRound hrefBufSize ⟨ascii " href=http://x>", []⟩ = .again ⟨ascii "//x>", []⟩ := by
    decide +kernel
  have hstuck : Stuck (ascii "//x>") :=
    ⟨ch '/', ascii "/x>", by decide, by decide, by decide, by rintro (_ | _ | _)⟩
  intro h
  exact hstuck.not_attrText ((attrRound_again hround).1.mpr h)

/-- `UPDATE_HTML_DESC_MAX_OUT`, the limit of the manifest check. -/
def htmlDescMaxOut : Nat := 1024 * 1024 + 128

theorem bufInit_of_alloc {maxTotal : Nat} (h : 0 < maxTotal) :
    ∃ b, bufInit (fun _ => true) maxTotal = some b := by
  unfold bufInit
  rw [dif_pos h]
  exact ⟨_, rfl⟩

theorem not_returns_unquotedLink : ¬ Returns (updateHtmlSanitizeAlloc memory htmlDescMaxOut) unquotedLink := by
  have hlen : unquotedLink.length ≤ htmlDescMaxIn := by decide +kernel
  rw [updateHtmlSanitizeAlloc_returns_iff]
  intro h
  obtain ⟨b, hb⟩ : ∃ b, bufInit memory htmlDescMaxOut = some b := bufInit_of_alloc (by decide)
  have hok := h (.start unquotedLink b) ⟨hlen, b, hb, .refl _⟩
  have htext : (Scan.start unquotedLink b).linkText = some (ascii " href=http://x>") := by
    refine linkText_eq_some.mpr ⟨?_, ?_, ?_⟩
    · show tagNameEqLc ((skipWs ((unquotedLink.dropWhile (· != ch '<')).drop 1)).takeWhile isTagnameChar) _ = _
      decide +kernel
    · show [].length < stackSize
      decide
    · show spanTo ((skipWs ((unquotedLink.dropWhile (· != ch '<')).drop 1)).dropWhile isTagnameChar)
        (skipToTagEnd (unquotedLink.dropWhile (· != ch '<'))) = _
      decide +kernel
  have hwritten : (emitHtmlEscaped memory (Scan.start unquotedLink b).buf
      (Scan.start unquotedLink b).chunk).isSome := by
    rw [show (Scan.start unquotedLink b).chunk = [] from by
      show unquotedLink.takeWhile (· != ch '<') = []
      decide +kernel]
    rfl
  exact not_attrText_unquoted (hok hwritten _ htext)

/-- **The sanitizer does not return on a link with an unquoted target.** -/
theorem sanitize_hangs :
    unquotedLink.length ≤ htmlDescMaxIn
      ∧ ¬ Returns (updateHtmlSanitizeAlloc (fun _ => true) htmlDescMaxOut) unquotedLink :=
  ⟨by decide +kernel, not_returns_unquotedLink⟩

end LibUpdate
