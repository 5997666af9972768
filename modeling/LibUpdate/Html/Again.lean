import LibUpdate.Html.Document
import LibUpdate.Html.Tags

/-!
# `Html.Again` — the sanitizer on allowed documents

On an allowed document the scanner takes every tag for what it is, closes what is open, and reads the link
targets as they stand. But the text goes through `emit_html_escaped` once more, and so does a link target: the
`&` of a character reference becomes a reference itself. So the documents that pass unchanged are the allowed
ones without `&`.
-/

namespace LibUpdate

/-! ## Text that stands for itself -/

theorem escapeByte_plain {c : UInt8} (hamp : c ≠ ch '&') (hlt : c ≠ ch '<') (hgt : c ≠ ch '>')
    (hquot : c ≠ ch '"') : escapeByte c = [c] := by
  rw [escapeByte, if_neg hamp, if_neg hlt, if_neg hgt, if_neg hquot]

theorem EscapedText.tail {c : UInt8} {s : Bytes} (h : EscapedText (c :: s)) :
    (c ≠ ch '<' ∧ c ≠ ch '>' ∧ c ≠ ch '"') ∧ EscapedText s := by
  obtain ⟨hlt, hgt, hquot, hamp⟩ := h
  rw [List.mem_cons, not_or] at hlt hgt hquot
  refine ⟨⟨Ne.symm hlt.1, Ne.symm hgt.1, Ne.symm hquot.1⟩, hlt.2, hgt.2, hquot.2, ?_⟩
  intro pre post hs
  exact hamp (c :: pre) post (by rw [hs, List.cons_append])

/-- Escaping escaped text once more makes every `&` four bytes longer and leaves the rest alone. -/
theorem EscapedText.escaped_count {s : Bytes} (h : EscapedText s) :
    (escaped s).length = s.length + 4 * s.count (ch '&') ∧ (escaped s).count (ch '&') = s.count (ch '&') := by
  induction s with
  | nil => exact ⟨rfl, rfl⟩
  | cons c s ih =>
      obtain ⟨⟨hlt, hgt, hquot⟩, hs⟩ := h.tail
      obtain ⟨hlen, hcount⟩ := ih hs
      rw [escaped_cons, List.length_append, List.count_append, List.length_cons, List.count_cons, hlen, hcount]
      by_cases hamp : c = ch '&'
      · subst hamp
        have hamp : (escapeByte (ch '&')).length = 5 ∧ (escapeByte (ch '&')).count (ch '&') = 1 := by decide
        rw [hamp.1, hamp.2, if_pos (by simp)]
        omega
      · rw [escapeByte_plain hamp hlt hgt hquot, List.count_singleton, List.length_singleton]
        simp only [beq_iff_eq, hamp, if_false]
        omega

theorem EscapedText.escaped_eq {s : Bytes} (h : EscapedText s) (hamp : ch '&' ∉ s) : escaped s = s := by
  induction s with
  | nil => rfl
  | cons c s ih =>
      obtain ⟨⟨hlt, hgt, hquot⟩, hs⟩ := h.tail
      rw [List.mem_cons, not_or] at hamp
      rw [escaped_cons, escapeByte_plain (Ne.symm hamp.1) hlt hgt hquot, ih hs hamp.2,
        List.singleton_append]

/-- What escaping adds comes from its character references. -/
theorem length_escaped_le_count (s : Bytes) :
    (escaped s).length ≤ s.length + 5 * (escaped s).count (ch '&') := by
  have hentities : ∀ e ∈ entities, e.2.length ≤ 6 ∧ e.2.count (ch '&') = 1 := by decide
  induction s with
  | nil => exact Nat.le_refl 0
  | cons c s ih =>
      rw [escaped_cons, List.length_append, List.count_append, List.length_cons]
      rcases escapeByte_cases c with he | ⟨_, hself⟩
      · obtain ⟨hlen, hcount⟩ := hentities _ he
        dsimp only at hlen hcount
        omega
      · rw [hself, List.length_singleton]
        omega

/-! ## Links -/

theorem isspace_plain {c : UInt8} (h : isspace c = true) : escapeByte c = [c] := by
  have hall : ∀ c, isspace c = true → escapeByte c = [c] := forall_byte (by decide +kernel)
  exact hall c h

theorem dropWhile_isspace_escaped (s : Bytes) :
    (escaped s).dropWhile isspace = escaped (s.dropWhile isspace) := by
  have hentities : ∀ e ∈ entities, ∀ d ∈ e.2.head?, isspace d = false := by decide +kernel
  have hhead : ∀ c, isspace c = false → ∃ d t, escapeByte c = d :: t ∧ isspace d = false := by
    intro c hc
    cases hesc : escapeByte c with
    | nil => exact absurd (length_escapeByte c).1 (by simp [hesc])
    | cons d t =>
        refine ⟨d, t, rfl, ?_⟩
        rcases escapeByte_cases c with he | ⟨_, hself⟩
        · exact hentities _ he d (by rw [hesc]; rfl)
        · rw [hesc] at hself
          rw [(List.cons.inj hself).1]
          exact hc
  induction s with
  | nil => rfl
  | cons c s ih =>
      cases hspace : isspace c with
      | true =>
          rw [escaped_cons, isspace_plain hspace, List.singleton_append, List.dropWhile_cons_of_pos hspace, ih,
            List.dropWhile_cons_of_pos hspace]
      | false =>
          obtain ⟨d, t, hesc, hd⟩ := hhead c hspace
          rw [dropWhile_eq_self hspace, escaped_cons, hesc, List.cons_append, dropWhile_eq_self hd]

theorem prefix_escaped {lit s : Bytes} (hlit : ∀ l ∈ lit, escapeByte l = [l]) (h : lit <+: s.map asciiLowerUc) :
    lit <+: (escaped s).map asciiLowerUc := by
  induction s generalizing lit with
  | nil => exact h
  | cons c s ih =>
      cases lit with
      | nil => exact List.nil_prefix
      | cons l lit =>
          rw [List.map_cons, List.cons_prefix_cons] at h
          obtain ⟨rfl, h⟩ := h
          have hself : escapeByte c = [c] := by
            rcases escapeByte_cases c with he | ⟨_, hself⟩
            · -- the bytes that are escaped are no letters, so the scheme would have one of them
              have hentities : ∀ e ∈ entities, escapeByte (asciiLowerUc e.1) ≠ [asciiLowerUc e.1] := by decide
              exact absurd (hlit _ List.mem_cons_self) (hentities _ he)
            · exact hself
          rw [escaped_cons, hself, List.singleton_append, List.map_cons, List.cons_prefix_cons]
          exact ⟨rfl, ih (fun l hl => hlit l (List.mem_cons_of_mem _ hl)) h⟩

/-- A safe target is still one after escaping: what makes it safe has no byte that is escaped. -/
theorem SafeTarget.escaped {target : Bytes} (h : SafeTarget target) : SafeTarget (escaped target) := by
  unfold SafeTarget
  rw [dropWhile_isspace_escaped]
  rcases h with hhash | ⟨scheme, hmem, hprefix⟩
  · left
    cases hd : target.dropWhile isspace with
    | nil => rw [hd] at hhash; cases hhash
    | cons c s =>
        rw [hd] at hhash
        obtain rfl : c = ch '#' := Option.some.inj hhash
        rfl
  · have hplain : ∀ scheme ∈ linkSchemes, ∀ l ∈ scheme, escapeByte l = [l] := by decide +kernel
    exact Or.inr ⟨scheme, hmem, prefix_escaped (hplain scheme hmem) hprefix⟩

/-- ` href="v"`. -/
def hrefAttrs (v : Bytes) (hv : ch '"' ∉ v) : TagAttrs where
  bytes := ascii " href=" ++ ch '"' :: (v ++ [ch '"'])
  apart := by
    intro c hc
    cases hc
    decide
  closed := by
    refine (TagText.of_plain (s := ascii " href=") (by decide +kernel)).append ?_
    exact .quoted (by decide) hv .nil

theorem openText_href (v : Bytes) (hv : ch '"' ∉ v) :
    openText (.of .a) (hrefAttrs v hv) = ascii "<a href=\"" ++ v ++ ascii "\">" := by
  have hfront : ascii "<a href=\"" = ch '<' :: (tagOpen .a ++ (ascii " href=" ++ [ch '"'])) := by decide +kernel
  have hback : ascii "\">" = [ch '"', ch '>'] := by decide +kernel
  rw [hfront, hback]
  simp [openText, TagName.of, hrefAttrs]

/-- A quoted target is read as it stands, if it is safe and fits. -/
theorem parseAnchorHref_quoted {v : Bytes} (hv : ch '"' ∉ v) :
    parseAnchorHref hrefBufSize 2 ((hrefAttrs v hv).bytes ++ [ch '>'])
      = some (if hrefIsSafe v && v.length + 1 ≤ hrefBufSize then v else []) := by
  have htest : ∀ c ∈ v, (c != ch '"') = true := fun c hc => bne_iff_ne.mpr fun heq => hv (heq ▸ hc)
  have htake : (v ++ [ch '"', ch '>']).takeWhile (· != ch '"') = v := takeWhile_span htest (by simp)
  have hdrop : (v ++ [ch '"', ch '>']).dropWhile (· != ch '"') = [ch '"', ch '>'] := dropWhile_span htest (by simp)
  have hstart : skipWs ((hrefAttrs v hv).bytes ++ [ch '>']) = ascii "href=" ++ ch '"' :: (v ++ [ch '"', ch '>']) := by
    simp only [hrefAttrs, List.append_assoc, List.cons_append, List.nil_append]
    rfl
  have hfirst : attrRound hrefBufSize ⟨ascii "href=" ++ ch '"' :: (v ++ [ch '"', ch '>']), []⟩
      = .again ⟨[ch '>'], if hrefIsSafe v && v.length + 1 ≤ hrefBufSize then v else []⟩ := by
    have hname : attrRound hrefBufSize ⟨ascii "href=" ++ ch '"' :: (v ++ [ch '"', ch '>']), []⟩
        = .again (attrValueRound hrefBufSize (ascii "href") [] (ch '"' :: (v ++ [ch '"', ch '>']))) := rfl
    rw [hname, attrValueRound, if_neg (by decide), if_pos (by decide), if_neg (by decide), takeAttrValue,
      if_pos (by decide), htake, hdrop]
    dsimp only
    split <;> rfl
  have hlast : ∀ href, attrRound hrefBufSize ⟨[ch '>'], href⟩ = .leave href := fun _ => rfl
  rw [parseAnchorHref, whileLoop, hstart, iterate_again (congrArg some hfirst), iterate_leave (congrArg some (hlast _))]

/-! ## The tags of a document -/

theorem classifyTag_tagOpen (t : Tid) : classifyTag (tagOpen t) = some (t, decide (t = .br)) := by
  cases t <;> decide

theorem tagIsDangerous_tagOpen (t : Tid) : tagIsDangerous (tagOpen t) = false := by
  cases t <;> decide

theorem classifyTag_open {t : Tid} (hbr : t ≠ .br) : classifyTag (tagOpen t) = some (t, false) := by
  rw [classifyTag_tagOpen, decide_eq_false hbr]

section

variable {rest : Bytes} {stack : List Tid}

theorem Steps.docBr : Steps (ascii "<br>" ++ rest) stack (ascii "<br>") rest stack := by
  have hbr : ascii "<br>" = openTag .br := by decide +kernel
  have hstep : Steps (openText (.of .br) .none ++ rest) stack (ascii "<br>") rest stack :=
    Steps.br (tagIsDangerous_tagOpen .br) (classifyTag_tagOpen .br)
  rwa [openText_of, ← hbr] at hstep

theorem Steps.docOpen {t : Tid} (hbr : t ≠ .br) (ha : t ≠ .a) (hroom : stack.length < stackSize) :
    Steps (openTag t ++ rest) stack (openTag t) rest (t :: stack) := by
  have hstep : Steps (openText (.of t) .none ++ rest) stack (openTag t) rest (t :: stack) :=
    Steps.open (tagIsDangerous_tagOpen t) ha (classifyTag_open hbr) hroom
  rwa [openText_of] at hstep

theorem Steps.docClose {t : Tid} (hbr : t ≠ .br) :
    Steps (closeTag t ++ rest) (t :: stack) (closeTag t) rest stack := by
  have hstep : Steps (closeText (.of t) ++ rest) (t :: stack) (closeTag t) rest stack :=
    Steps.close hbr (classifyTag_tagOpen t)
  rwa [closeText_of] at hstep

theorem Steps.docStray {t : Tid} (h : stack.head? ≠ some t) : Steps (closeTag t ++ rest) stack [] rest stack := by
  have hstep : Steps (closeText (.of t) ++ rest) stack [] rest stack := by
    refine Steps.stray ?_
    intro top htop void hclass
    have hname : classifyTag (TagName.of t).bytes = some (t, decide (t = .br)) := classifyTag_tagOpen t
    rw [hname] at hclass
    obtain rfl : t = top := congrArg Prod.fst (Option.some.inj hclass)
    exact absurd htop h
  rwa [closeText_of] at hstep

theorem quote_not_mem_escaped (target : Bytes) : ch '"' ∉ escaped target := (escapedText_escaped target).quot

/-- A link whose target fits as it is written: it is pushed, and the target is escaped once more. -/
theorem Steps.docLink {target : Bytes} (hsafe : SafeTarget target) (hnul : (0 : UInt8) ∉ target)
    (hshort : (escaped target).length < hrefBufSize) (hroom : stack.length < stackSize) :
    Steps (anchorTag target ++ rest) stack (anchorTag (escaped target)) rest (.a :: stack) := by
  have hsafe' : hrefIsSafe (escaped target) = true := hrefIsSafe_iff.mpr hsafe.escaped
  have hparse := parseAnchorHref_quoted (quote_not_mem_escaped target)
  rw [if_pos (by simp only [hsafe', Bool.true_and, decide_eq_true_eq]; exact hshort)] at hparse
  have hcstr : cstr (escaped target) = escaped target := cstr_eq_self (nul_not_mem_escaped hnul)
  have hne : cstr (escaped target) ≠ [] := by
    rw [hcstr]
    intro hnil
    rw [hnil] at hsafe'
    exact absurd hsafe' (by decide)
  have hstep : Steps (openText (.of .a) (hrefAttrs _ (quote_not_mem_escaped target)) ++ rest) stack
      (anchorTag (cstr (escaped target))) rest (.a :: stack) :=
    Steps.link (classifyTag_open (t := .a) (by decide)) hparse hne hroom
  rwa [openText_href, hcstr] at hstep

/-- A link whose target does not fit as it is written is dropped. -/
theorem Steps.docLong {target : Bytes} (hlong : hrefBufSize ≤ (escaped target).length)
    (hroom : stack.length < stackSize) : Steps (anchorTag target ++ rest) stack [] rest stack := by
  have hparse := parseAnchorHref_quoted (quote_not_mem_escaped target)
  rw [if_neg (by
    simp only [Bool.and_eq_true, decide_eq_true_eq, not_and, Nat.not_le]
    intro _
    exact Nat.lt_succ_of_le hlong)] at hparse
  have hstep : Steps (openText (.of .a) (hrefAttrs _ (quote_not_mem_escaped target)) ++ rest) stack [] rest stack :=
    Steps.noLink (classifyTag_open (t := .a) (by decide)) hparse rfl hroom
  rwa [openText_href] at hstep

end

/-! ## Documents without character references -/

/-- An allowed document without `&` is written as it stands. -/
theorem nestedIn_emits {n : Nat} {y : Bytes} (h : allowedBrackets.NestedIn n y) (hamp : ch '&' ∉ y)
    {stack : List Tid} (hdepth : stack.length + n ≤ stackSize) {rest out : Bytes} (hrest : Emits rest stack out) :
    Emits (y ++ rest) stack (y ++ out) := by
  induction h generalizing stack rest out with
  | nil => exact hrest
  | @atom n w y hw hy ih =>
      simp only [List.mem_append, not_or] at hamp
      rw [List.append_assoc, List.append_assoc]
      have hrun := ih hamp.2 hdepth hrest
      rcases hw with htext | rfl
      · have hwrites := hrun.text htext.lt
        rwa [htext.escaped_eq hamp.1] at hwrites
      · exact Emits.step .docBr hrun
  | @node n t o w y ho hw hy ihw ihy =>
      simp only [List.mem_append, not_or] at hamp
      obtain ⟨⟨⟨hampo, hampw⟩, _⟩, hampy⟩ := hamp
      have hbr : t ≠ .br := by
        rcases ho with ⟨hbr, _⟩ | ⟨rfl, _⟩
        · exact hbr
        · decide
      have hroom : stack.length < stackSize := by omega
      have hclose : Emits (closeTag t ++ (y ++ rest)) (t :: stack) (closeTag t ++ (y ++ out)) :=
        Emits.step (.docClose hbr) (ihy hampy hdepth hrest)
      have hinner := ihw hampw (by rw [List.length_cons]; omega) hclose
      have hopen : Steps (o ++ (w ++ (closeTag t ++ (y ++ rest)))) stack o (w ++ (closeTag t ++ (y ++ rest)))
          (t :: stack) := by
        rcases ho with ⟨_, ha, rfl⟩ | ⟨rfl, target, hsafe, hshort, hnul, rfl⟩
        · exact .docOpen hbr ha hroom
        · have hself : escaped target = target := by
            have hamp' : ch '&' ∉ escaped target := by
              intro hmem
              exact hampo (by simp [anchorTag, hmem])
            exact escaped_inj ((escapedText_escaped target).escaped_eq hamp')
          have hlink : Steps (anchorTag target ++ (w ++ (closeTag .a ++ (y ++ rest)))) stack
              (anchorTag (escaped target)) (w ++ (closeTag .a ++ (y ++ rest))) (.a :: stack) :=
            .docLink hsafe hnul (by rwa [hself]) hroom
          rwa [hself] at hlink
      have hall := Emits.step hopen hinner
      show Emits (o ++ w ++ closeTag t ++ y ++ rest) stack (o ++ w ++ closeTag t ++ y ++ out)
      simpa only [List.append_assoc] using hall

/-! ## Documents with character references

On any allowed document the output is longer for every `&` that comes through, and a link that is dropped had
one. So the length, with each `&` weighed off against the longest link, tells whether there was one. -/

/-- More than a dropped link weighs for each `&` in it. -/
def ampWeight : Nat := 2 * hrefBufSize

/-- What is written from `p`, whichever of the tags `opened` have come through so far. The text from `p` on,
    with the closing tags of what it opens, has `weight` bytes, and `amps` times `&`. -/
def Grows (opened : List Tid) (p : Bytes) (weight amps : Nat) : Prop :=
  ∀ stack, stack.Sublist opened → ∃ out, Emits p stack out
    ∧ out.length ≤ 6 * p.length + (stack.flatMap closeTag).length
    ∧ (stack.flatMap closeTag).length + weight + amps + ampWeight * out.count (ch '&')
      ≤ out.length + ampWeight * amps

theorem count_closeTag (t : Tid) : (closeTag t).count (ch '&') = 0 := by
  cases t <;> decide

theorem count_openTag (t : Tid) : (openTag t).count (ch '&') = 0 := by
  cases t <;> decide

theorem count_anchorTag (target : Bytes) : (anchorTag target).count (ch '&') = (escaped target).count (ch '&') := by
  have hfixed : (ascii "<a href=\"").count (ch '&') = 0 ∧ (ascii "\">").count (ch '&') = 0 := by decide +kernel
  rw [anchorTag, List.count_append, List.count_append, hfixed.1, hfixed.2]
  omega

theorem count_closeTags (stack : List Tid) : (stack.flatMap closeTag).count (ch '&') = 0 := by
  induction stack with
  | nil => rfl
  | cons t stack ih => rw [List.flatMap_cons, List.count_append, count_closeTag, ih]

section

variable {opened : List Tid} {p : Bytes} {weight amps : Nat}

theorem Grows.nil (hbr : Tid.br ∉ opened) : Grows opened [] 0 0 := by
  intro stack hsub
  refine ⟨stack.flatMap closeTag, .nil fun hmem => hbr (hsub.subset hmem), ?_, ?_⟩
  · omega
  · rw [count_closeTags]
    omega

theorem Grows.text {s : Bytes} (hs : EscapedText s) (h : Grows opened p weight amps) :
    Grows opened (s ++ p) (s.length + weight) (s.count (ch '&') + amps) := by
  intro stack hsub
  obtain ⟨out, hout, hlong, hgrow⟩ := h stack hsub
  obtain ⟨hlen, hcount⟩ := hs.escaped_count
  have hle := length_escaped_le s
  refine ⟨escaped s ++ out, hout.text hs.lt, ?_, ?_⟩
  · rw [List.length_append, List.length_append]
    omega
  · rw [List.length_append, List.count_append, hlen, hcount]
    simp only [ampWeight, hrefBufSize] at hgrow ⊢
    omega

theorem Grows.br (h : Grows opened p weight amps) :
    Grows opened (ascii "<br>" ++ p) ((ascii "<br>").length + weight) amps := by
  have hbr : (ascii "<br>").length = 4 ∧ (ascii "<br>").count (ch '&') = 0 := by decide +kernel
  intro stack hsub
  obtain ⟨out, hout, hlong, hgrow⟩ := h stack hsub
  refine ⟨ascii "<br>" ++ out, .step .docBr hout, ?_, ?_⟩
  · rw [List.length_append, List.length_append, hbr.1]
    omega
  · rw [List.length_append, List.count_append, hbr.1, hbr.2]
    simp only [ampWeight, hrefBufSize] at hgrow ⊢
    omega

/-- A closing tag closes what it belongs to, if that has come through, and nothing otherwise. -/
theorem Grows.close {t : Tid} (hbr : t ≠ .br) (h : Grows opened p weight amps) :
    Grows (t :: opened) (closeTag t ++ p) weight amps := by
  intro stack hsub
  by_cases htop : stack.head? = some t
  · obtain ⟨stack', rfl⟩ := List.head?_eq_some_iff.mp htop
    obtain ⟨out, hout, hlong, hgrow⟩ := h stack' (List.cons_sublist_cons.mp hsub)
    refine ⟨closeTag t ++ out, .step (.docClose hbr) hout, ?_, ?_⟩
    · rw [List.length_append, List.length_append, List.flatMap_cons, List.length_append]
      omega
    · rw [List.length_append, List.count_append, List.flatMap_cons, List.length_append, count_closeTag,
        Nat.zero_add]
      omega
  · have hsub' : stack.Sublist opened := by
      cases hsub with
      | cons _ hsub => exact hsub
      | cons_cons _ hsub => exact absurd rfl htop
    obtain ⟨out, hout, hlong, hgrow⟩ := h stack hsub'
    refine ⟨[] ++ out, .step (.docStray htop) hout, ?_, ?_⟩
    · rw [List.nil_append, List.length_append]
      omega
    · rwa [List.nil_append]

/-- A tag other than a link comes through. -/
theorem Grows.opens {t : Tid} (hbr : t ≠ .br) (ha : t ≠ .a) (hroom : opened.length < stackSize)
    (h : Grows (t :: opened) p weight amps) :
    Grows opened (openTag t ++ p) ((openTag t).length + ((closeTag t).length + weight)) amps := by
  have hclose : (closeTag t).length = (openTag t).length + 1 := by cases t <;> decide
  have hlong' : 1 ≤ (openTag t).length := by cases t <;> decide
  intro stack hsub
  obtain ⟨out, hout, hlong, hgrow⟩ := h (t :: stack) (hsub.cons_cons t)
  rw [List.flatMap_cons, List.length_append] at hlong hgrow
  have hroom' : stack.length < stackSize := Nat.lt_of_le_of_lt hsub.length_le hroom
  refine ⟨openTag t ++ out, .step (.docOpen hbr ha hroom') hout, ?_, ?_⟩
  · rw [List.length_append, List.length_append]
    omega
  · rw [List.length_append, List.count_append, count_openTag]
    simp only [ampWeight, hrefBufSize] at hgrow ⊢
    omega

/-- A link comes through, or it had a character reference that makes its target too long. -/
theorem Grows.link {target : Bytes} (hsafe : SafeTarget target) (hnul : (0 : UInt8) ∉ target)
    (hshort : target.length < hrefBufSize) (hroom : opened.length < stackSize)
    (h : Grows (.a :: opened) p weight amps) :
    Grows opened (anchorTag target ++ p) ((anchorTag target).length + ((closeTag .a).length + weight))
      ((anchorTag target).count (ch '&') + amps) := by
  have hclose : (closeTag .a).length = 4 := by decide +kernel
  obtain ⟨hlen, hcount⟩ := (escapedText_escaped target).escaped_count
  have hle := length_escaped_le_count target
  have hle' := length_escaped_le (escaped target)
  intro stack hsub
  have hroom' : stack.length < stackSize := Nat.lt_of_le_of_lt hsub.length_le hroom
  by_cases hfits : (escaped target).length < hrefBufSize
  · obtain ⟨out, hout, hlong, hgrow⟩ := h (.a :: stack) (hsub.cons_cons .a)
    rw [List.flatMap_cons, List.length_append, hclose] at hlong hgrow
    refine ⟨anchorTag (escaped target) ++ out, .step (.docLink hsafe hnul hfits hroom') hout, ?_, ?_⟩
    · rw [List.length_append, List.length_append, length_anchorTag, length_anchorTag]
      omega
    · rw [List.length_append, List.count_append, length_anchorTag, count_anchorTag, length_anchorTag, count_anchorTag,
        hclose]
      simp only [ampWeight, hrefBufSize] at hgrow ⊢
      omega
  · obtain ⟨out, hout, hlong, hgrow⟩ := h stack (hsub.cons .a)
    refine ⟨[] ++ out, .step (.docLong (Nat.le_of_not_lt hfits) hroom') hout, ?_, ?_⟩
    · rw [List.nil_append, List.length_append]
      omega
    · rw [List.nil_append, length_anchorTag, count_anchorTag, hclose]
      simp only [ampWeight, hrefBufSize] at hgrow hfits hshort ⊢
      omega

end

theorem nestedIn_grows {n : Nat} {y : Bytes} (h : allowedBrackets.NestedIn n y) {opened : List Tid}
    (hdepth : opened.length + n ≤ stackSize) {p : Bytes} {weight amps : Nat} (hp : Grows opened p weight amps) :
    Grows opened (y ++ p) (y.length + weight) (y.count (ch '&') + amps) := by
  induction h generalizing opened p weight amps with
  | nil => simpa using hp
  | @atom n w y hw hy ih =>
      have hrest := ih hdepth hp
      rw [List.append_assoc, List.length_append, List.count_append, Nat.add_assoc, Nat.add_assoc]
      rcases hw with htext | rfl
      · exact hrest.text htext
      · have hcount : (ascii "<br>").count (ch '&') = 0 := by decide +kernel
        rw [hcount, Nat.zero_add]
        exact hrest.br
  | @node n t o w y ho hw hy ihw ihy =>
      have hbr : t ≠ .br := by
        rcases ho with ⟨hbr, _⟩ | ⟨rfl, _⟩
        · exact hbr
        · decide
      have hroom : opened.length < stackSize := by omega
      have hinner := ihw (by rw [List.length_cons]; omega) ((ihy hdepth hp).close hbr)
      have hopen : Grows opened (o ++ (w ++ (closeTag t ++ (y ++ p))))
          (o.length + ((closeTag t).length + (w.length + (y.length + weight))))
          (o.count (ch '&') + (w.count (ch '&') + (y.count (ch '&') + amps))) := by
        rcases ho with ⟨_, ha, rfl⟩ | ⟨rfl, target, hsafe, hshort, hnul, rfl⟩
        · rw [count_openTag, Nat.zero_add]
          exact hinner.opens hbr ha hroom
        · exact hinner.link hsafe hnul hshort hroom
      have hlen : (o ++ w ++ closeTag t ++ y).length + weight
          = o.length + ((closeTag t).length + (w.length + (y.length + weight))) := by
        simp only [List.length_append]
        omega
      have hcount : (o ++ w ++ closeTag t ++ y).count (ch '&') + amps
          = o.count (ch '&') + (w.count (ch '&') + (y.count (ch '&') + amps)) := by
        simp only [List.count_append, count_closeTag]
        omega
      show Grows opened (o ++ w ++ closeTag t ++ y ++ p) ((o ++ w ++ closeTag t ++ y).length + weight)
        ((o ++ w ++ closeTag t ++ y).count (ch '&') + amps)
      rw [hlen, hcount]
      simpa only [List.append_assoc] using hopen

/-! ## Sanitizing again -/

theorem AllowedDoc.passes {y : Bytes} (h : AllowedDoc y) (hamp : ch '&' ∉ y) (hlen : y.length ≤ htmlDescMaxIn)
    {maxOutTotal : Nat} (hmax : y.length < maxOutTotal) :
    ∃ fuel, updateHtmlSanitizeAlloc memory maxOutTotal fuel y = some (some y) := by
  have hend : Emits [] [] [] := .nil (by simp)
  have hrun := nestedIn_emits h hamp (Nat.le_refl _) hend
  rw [List.append_nil] at hrun
  have hhalf : htmlDescMaxIn < halfSize := by decide
  obtain ⟨fuel, hfuel⟩ := hrun.sanitize hlen (by omega) maxOutTotal
  rw [if_pos (Nat.succ_le_of_lt hmax)] at hfuel
  exact ⟨fuel, hfuel⟩

/-- On an allowed document with `&` the output is another one. -/
theorem AllowedDoc.amp_not_mem {y : Bytes} (h : AllowedDoc y) (hlen : y.length ≤ htmlDescMaxIn)
    {maxOutTotal fuel : Nat} (hy : updateHtmlSanitizeAlloc memory maxOutTotal fuel y = some (some y)) :
    ch '&' ∉ y ∧ y.length < maxOutTotal := by
  have hstart : Grows [] [] 0 0 := .nil (by simp)
  have hgrows := nestedIn_grows h (Nat.le_refl _) hstart
  rw [List.append_nil, Nat.add_zero, Nat.add_zero] at hgrows
  obtain ⟨out, hout, hlong, hgrow⟩ := hgrows [] (List.Sublist.refl [])
  simp only [List.flatMap_nil, List.length_nil] at hlong hgrow
  have hhalf : 6 * htmlDescMaxIn < halfSize := by decide
  obtain ⟨fuel', hfuel'⟩ := hout.sanitize hlen (by omega) maxOutTotal
  have hsame := updateHtmlSanitizeAlloc_unique hy hfuel'
  split at hsame
  · next hroom =>
    obtain rfl := Option.some.inj hsame
    refine ⟨?_, hroom⟩
    intro hmem
    have hpos := List.count_pos_iff.mpr hmem
    omega
  · cases hsame

/-- **What passes unchanged.** Every output is an allowed document: well-nested allowed tags, at most as deep as
    the stack, safe link targets, and special characters as character references. An allowed document is
    what comes back from the sanitizer exactly if it has no `&`, and so no character reference, within the
    two limits. -/
theorem sanitize_again_iff (alloc : Nat → Bool) (limit fuel : Nat) (x y : Bytes) (maxOutTotal : Nat) :
    (updateHtmlSanitizeAlloc alloc limit fuel x = some (some y) → AllowedDoc y)
      ∧ ((∃ fuel, updateHtmlSanitizeAlloc memory maxOutTotal fuel y = some (some y))
          ↔ (AllowedDoc y ∧ ch '&' ∉ y) ∧ y.length ≤ htmlDescMaxIn ∧ y.length < maxOutTotal) := by
  refine ⟨sanitize_allowed, ?_, ?_⟩
  · rintro ⟨fuel, hfuel⟩
    have hdoc := sanitize_allowed hfuel
    have hlen : y.length ≤ htmlDescMaxIn := by
      refine Nat.le_of_not_lt fun hlong => ?_
      rw [updateHtmlSanitizeAlloc, if_pos (by simp [hlong])] at hfuel
      cases hfuel
    obtain ⟨hamp, hmax⟩ := hdoc.amp_not_mem hlen hfuel
    exact ⟨⟨hdoc, hamp⟩, hlen, hmax⟩
  · rintro ⟨⟨hdoc, hamp⟩, hlen, hmax⟩
    exact hdoc.passes hamp hlen hmax

/-- **The sanitizer is not idempotent**: it escapes its own character references, in text and in links. -/
theorem sanitize_again_escapes :
    ∃ y, updateHtmlSanitizeAlloc memory htmlDescMaxOut 9 (ascii "<a href=\"http://x/?a&b\">c & d</a>") = some (some y)
      ∧ y = ascii "<a href=\"http://x/?a&amp;b\">c &amp; d</a>"
      ∧ updateHtmlSanitizeAlloc memory htmlDescMaxOut 9 y
        = some (some (ascii "<a href=\"http://x/?a&amp;amp;b\">c &amp;amp; d</a>"))
      ∧ ¬ ∃ fuel, updateHtmlSanitizeAlloc memory htmlDescMaxOut fuel y = some (some y) := by
  have hagain : updateHtmlSanitizeAlloc memory htmlDescMaxOut 9 (ascii "<a href=\"http://x/?a&amp;b\">c &amp; d</a>")
      = some (some (ascii "<a href=\"http://x/?a&amp;amp;b\">c &amp;amp; d</a>")) := by decide +kernel
  refine ⟨_, by decide +kernel, rfl, hagain, ?_⟩
  rintro ⟨fuel, hfuel⟩
  have hsame := updateHtmlSanitizeAlloc_unique hagain hfuel
  exact absurd hsame (by decide +kernel)

end LibUpdate
