import LibUpdate.Html.Document
import LibUpdate.Html.Tags

/-!
# `Html.Visible` — what stripping markup leaves of the text

A description is cut into segments: text, opening and closing tags, comments, dangerous elements with their
closing tags, and dangerous void tags, to which HTML gives no closing tag. Stripping the markup should leave
the text outside of the dangerous elements. At every segment but the last kind the scanner resumes exactly at
the end of the segment, whatever follows (`Segment.scan`). At a void tag it looks for a closing tag all the
same, and what stands before the one it finds, or before the end, is lost.
-/

namespace LibUpdate

/-! ## Segments -/

/-- The name as the scanner compares it. -/
def TagName.lower (n : TagName) : Bytes := n.bytes.map asciiLowerUc

/-- The dangerous tags that HTML gives no closing tag. -/
def voidTags : List Bytes :=
  [ascii "img", ascii "input", ascii "link", ascii "meta", ascii "base", ascii "embed"]

/-- The text has no closing tag of the name. -/
def NoClose (tagLc s : Bytes) : Prop :=
  ∀ pre name post, s = pre ++ ch '<' :: ch '/' :: (name ++ post) → name.map asciiLowerUc = tagLc →
    post.head?.any isTagnameChar = true

/-- A piece of a description. An opening tag is allowed or unknown; in a link the attributes have values
    that the parser gets through. -/
inductive Segment where
  | text (s : Bytes) (hs : ch '<' ∉ s)
  | opening (n : TagName) (attrs : TagAttrs) (hsafe : tagIsDangerous n.bytes = false)
      (hlink : tagNameEqLc n.bytes (ascii "a") = true → AttrText (attrs.bytes ++ [ch '>']))
  | closing (n : TagName)
  | comment (body : Bytes) (hbody : ¬ ascii "-->" <:+: body)
  | element (n : TagName) (attrs : TagAttrs) (body : Bytes) (close : TagName) (space : TagAttrs)
      (hdanger : tagIsDangerous n.bytes = true) (hbody : NoClose n.lower body) (hclose : close.lower = n.lower)
  | void (n : TagName) (attrs : TagAttrs) (hvoid : n.lower ∈ voidTags)

/-- `</name space>`. -/
def closeTextWith (n : TagName) (space : TagAttrs) : Bytes :=
  ch '<' :: ch '/' :: (n.bytes ++ (space.bytes ++ [ch '>']))

namespace Segment

def bytes : Segment → Bytes
  | text s _ => s
  | opening n attrs _ _ => openText n attrs
  | closing n => closeText n
  | comment body _ => ascii "<!--" ++ body ++ ascii "-->"
  | element n attrs body close space _ _ _ => openText n attrs ++ body ++ closeTextWith close space
  | void n attrs _ => openText n attrs

/-- What should be seen of it: of a text all of it, escaped, and of the markup nothing. -/
def visible : Segment → Bytes
  | text s _ => escaped s
  | _ => []

def IsVoid : Segment → Prop
  | void _ _ _ => True
  | _ => False

end Segment

def bytesOf (segs : List Segment) : Bytes := segs.flatMap Segment.bytes

/-- The escaped text outside of the dangerous elements, in order. -/
def shown (segs : List Segment) : Bytes := segs.flatMap Segment.visible

/-- An output without its tags; the flag is set inside of one. -/
def eraseTags (inTag : Bool) : Bytes → Bytes
  | [] => []
  | c :: s =>
      if inTag then eraseTags (c != ch '>') s
      else if c = ch '<' then eraseTags true s
      else c :: eraseTags false s

/-! ## Skipping to a closing tag -/

theorem closeTextWith_append (n : TagName) (space : TagAttrs) (rest : Bytes) :
    closeTextWith n space ++ rest = ch '<' :: ch '/' :: (n.bytes ++ (space.bytes ++ ch '>' :: rest)) := by
  simp [closeTextWith]

/-- The scan for the end of the closing tag. -/
theorem skipToTagEnd_closeTextWith (n : TagName) (space : TagAttrs) (rest : Bytes) :
    skipToTagEnd (closeTextWith n space ++ rest) = rest := by
  have htext : TagText (ch '<' :: ch '/' :: (n.bytes ++ space.bytes)) :=
    .byte (by decide) (by decide) (.byte (by decide) (by decide) (n.tagText.append space.closed))
  have hend := htext.scan_end rest
  rw [closeTextWith_append]
  rwa [List.cons_append, List.cons_append, List.append_assoc] at hend

theorem length_lower (n : TagName) : n.lower.length = n.bytes.length := List.length_map ..

theorem head_not_tagname (space : TagAttrs) (rest : Bytes) :
    (space.bytes ++ ch '>' :: rest).head?.any isTagnameChar = false := by
  obtain ⟨bytes, hapart, _⟩ := space
  cases bytes with
  | nil =>
      show isTagnameChar (ch '>') = false
      decide
  | cons c s => exact hapart c rfl

theorem lt_not_mem_lower (n : TagName) : ch '<' ∉ n.lower := by
  have hall : ∀ c, isTagnameChar c = true → asciiLowerUc c ≠ ch '<' := forall_byte (by decide +kernel)
  intro hmem
  obtain ⟨c, hc, heq⟩ := List.mem_map.mp hmem
  exact hall c (n.chars c hc) heq

/-- The search finds the closing tag where it stands. -/
theorem findCloseTagOpen_here (n : TagName) (space : TagAttrs) (rest : Bytes) :
    findCloseTagOpen n.lower (closeTextWith n space ++ rest) = some (closeTextWith n space ++ rest) := by
  have hlen : ¬ (ch '<' :: ch '/' :: (n.bytes ++ (space.bytes ++ ch '>' :: rest))).length < 2 + n.lower.length := by
    simp only [List.length_cons, List.length_append, length_lower]
    omega
  have htake : ((ch '/' :: (n.bytes ++ (space.bytes ++ ch '>' :: rest))).drop 1).take n.lower.length = n.bytes := by
    rw [length_lower]
    exact List.take_left
  have hdrop : (ch '/' :: (n.bytes ++ (space.bytes ++ ch '>' :: rest))).drop (1 + n.lower.length)
      = space.bytes ++ ch '>' :: rest := by
    rw [length_lower, Nat.add_comm]
    exact List.drop_left
  have hname : tagNameEqLc n.bytes n.lower = true := tagNameEqLc_iff.mpr rfl
  rw [closeTextWith_append, findCloseTagOpen, if_neg hlen, if_neg (by simp), if_neg (by simp), htake, hdrop, hname,
    head_not_tagname]
  rfl

/-- A text without `/` has no closing tag. -/
theorem NoClose.of_slash {tagLc s : Bytes} (h : ch '/' ∉ s) : NoClose tagLc s := by
  rintro pre name post rfl _
  exact absurd (by simp) h

theorem NoClose.tail {tagLc : Bytes} {c : UInt8} {s : Bytes} (h : NoClose tagLc (c :: s)) : NoClose tagLc s := by
  intro pre name post hs
  exact h (c :: pre) name post (by rw [hs, List.cons_append])

/-- At a byte of such a text the search does not stop: not on a closing tag in it, and not on one that the
    text would begin and the closing tag behind it continue. -/
theorem noClose_mismatch (n : TagName) (space : TagAttrs) (rest : Bytes) {c : UInt8} {body : Bytes}
    (h : NoClose n.lower (c :: body)) (hlt : ¬ c ≠ ch '<')
    (hslash : ¬ (body ++ (closeTextWith n space ++ rest)).head? ≠ some (ch '/')) :
    ¬ (tagNameEqLc (((body ++ (closeTextWith n space ++ rest)).drop 1).take n.lower.length) n.lower
      && !(((body ++ (closeTextWith n space ++ rest)).drop (1 + n.lower.length)).head?.any isTagnameChar)) = true := by
  obtain rfl : c = ch '<' := Decidable.not_not.mp hlt
  obtain ⟨b, rfl⟩ : ∃ b, body = ch '/' :: b := by
    cases body with
    | nil =>
        rw [List.nil_append, closeTextWith_append] at hslash
        exact absurd (by decide : some (ch '<') ≠ some (ch '/')) hslash
    | cons d b => exact ⟨b, by rw [Option.some.inj (Decidable.not_not.mp hslash)]⟩
  rw [Bool.and_eq_true, tagNameEqLc_iff, Nat.add_comm 1, List.cons_append, List.drop_succ_cons, List.drop_succ_cons,
    List.drop_zero]
  rintro ⟨hname, hend⟩
  by_cases hlen : n.lower.length ≤ b.length
  · rw [List.take_append_of_le_length hlen] at hname
    have hany := h [] (b.take n.lower.length) (b.drop n.lower.length)
      (by rw [List.take_append_drop, List.nil_append]) hname
    have hhead : (b.drop n.lower.length ++ (closeTextWith n space ++ rest)).head?.any isTagnameChar = true := by
      cases hd : b.drop n.lower.length with
      | nil =>
          rw [hd] at hany
          cases hany
      | cons d post =>
          rw [hd] at hany
          exact hany
    rw [List.drop_append_of_le_length hlen, hhead] at hend
    cases hend
  · -- the name would have the `<` of the closing tag in it
    refine lt_not_mem_lower n ?_
    rw [← hname, closeTextWith_append]
    have hmem : ch '<' ∈ (b ++ ch '<' :: ch '/' :: (n.bytes ++ (space.bytes ++ ch '>' :: rest))).take n.lower.length := by
      rw [List.take_append, List.mem_append]
      right
      obtain ⟨k, hk⟩ : ∃ k, n.lower.length - b.length = k + 1 := ⟨n.lower.length - b.length - 1, by omega⟩
      rw [hk, List.take_succ_cons]
      exact List.mem_cons_self
    exact List.mem_map.mpr ⟨ch '<', hmem, by decide⟩

/-- The search goes through a text without a closing tag of the name. -/
theorem findCloseTagOpen_body (n : TagName) (space : TagAttrs) (rest : Bytes) {body : Bytes}
    (h : NoClose n.lower body) :
    findCloseTagOpen n.lower (body ++ (closeTextWith n space ++ rest)) = some (closeTextWith n space ++ rest) := by
  induction body with
  | nil => exact findCloseTagOpen_here n space rest
  | cons c body ih =>
      have hrest := ih h.tail
      have hlen : ¬ (c :: (body ++ (closeTextWith n space ++ rest))).length < 2 + n.lower.length := by
        simp only [closeTextWith, List.length_cons, List.length_append, length_lower]
        omega
      rw [List.cons_append, findCloseTagOpen, if_neg hlen]
      split
      · exact hrest
      next hlt =>
      split
      · exact hrest
      next hslash =>
      split
      · next hmatch =>
        exact absurd hmatch (noClose_mismatch n space rest h hlt hslash)
      · exact hrest

theorem skipDangerousContent_body {tagLc : Bytes} {close : TagName} (hclose : close.lower = tagLc) (space : TagAttrs)
    (rest : Bytes) {body : Bytes} (h : NoClose tagLc body) :
    skipDangerousContent (body ++ (closeTextWith close space ++ rest)) tagLc = rest := by
  subst hclose
  rw [skipDangerousContent, findCloseTagOpen_body close space rest h]
  exact skipToTagEnd_closeTextWith close space rest

theorem dangerousTagLc_eq {name : Bytes} (h : tagIsDangerous name = true) :
    dangerousTagLc name = some (name.map asciiLowerUc) := by
  obtain ⟨lit, hlit, hname⟩ := List.any_eq_true.mp h
  cases hfind : dangerousTagLc name with
  | none =>
      have hnone := List.find?_eq_none.mp hfind lit hlit
      exact absurd hname hnone
  | some tagLc => rw [tagNameEqLc_iff.mp (List.find?_some hfind)]

theorem tagIsDangerous_of_void {n : TagName} (h : n.lower ∈ voidTags) : tagIsDangerous n.bytes = true := by
  have hsub : ∀ lit ∈ voidTags, lit ∈ dangerTags := by decide +kernel
  exact List.any_eq_true.mpr ⟨n.lower, hsub _ h, tagNameEqLc_iff.mpr rfl⟩

/-! ## Comments -/

theorem skipComment_body {body : Bytes} (h : ¬ ascii "-->" <:+: body) (rest : Bytes) :
    skipComment (body ++ (ascii "-->" ++ rest)) = rest := by
  have hend : ascii "-->" = [ch '-', ch '-', ch '>'] := by decide +kernel
  rw [hend] at h ⊢
  induction body with
  | nil => rfl
  | cons c body ih =>
      have htail : ¬ [ch '-', ch '-', ch '>'] <:+: body := fun hin => h (hin.trans (List.suffix_cons c body).isInfix)
      obtain ⟨c₁, c₂, s, hs, hno⟩ : ∃ c₁ c₂ s, body ++ ([ch '-', ch '-', ch '>'] ++ rest) = c₁ :: c₂ :: s
          ∧ ¬ (c = ch '-' && c₁ = ch '-' && c₂ = ch '>') = true := by
        match body with
        | [] => exact ⟨_, _, _, rfl, by simp; intro _; decide⟩
        | [d] => exact ⟨_, _, _, rfl, by simp; intro _ _; decide⟩
        | d :: e :: body =>
            refine ⟨d, e, _, rfl, ?_⟩
            simp only [Bool.and_eq_true, decide_eq_true_eq]
            rintro ⟨⟨rfl, rfl⟩, rfl⟩
            exact h ⟨[], body, rfl⟩
      rw [List.cons_append, hs, skipComment, if_neg hno, ← hs]
      exact ih htail

theorem Steps.comment {body rest : Bytes} (h : ¬ ascii "-->" <:+: body) (stack : List Tid) :
    Steps (ascii "<!--" ++ body ++ ascii "-->" ++ rest) stack [] rest stack := by
  have hopen : ascii "<!--" = [ch '<', ch '!', ch '-', ch '-'] := by decide +kernel
  have happ : ascii "<!--" ++ body ++ ascii "-->" ++ rest
      = ch '<' :: ch '!' :: ch '-' :: ch '-' :: (body ++ (ascii "-->" ++ rest)) := by
    rw [hopen]
    simp
  rw [happ]
  refine .of_skip fun b hfits => ?_
  unfold markupRound
  rw [if_pos (by rw [hopen]; rfl)]
  have hskip := skipComment_body h rest
  rw [show (ch '<' :: ch '!' :: ch '-' :: ch '-' :: (body ++ (ascii "-->" ++ rest))).drop 4
    = body ++ (ascii "-->" ++ rest) from rfl, hskip]

/-! ## Erasing tags -/

theorem eraseTags_text {v : Bytes} (h : ch '<' ∉ v) (s : Bytes) : eraseTags false (v ++ s) = v ++ eraseTags false s := by
  induction v with
  | nil => rfl
  | cons c v ih =>
      rw [List.mem_cons, not_or] at h
      rw [List.cons_append, eraseTags, if_neg (by simp), if_neg (Ne.symm h.1), ih h.2, List.cons_append]

/-- A tag is erased whole. -/
theorem eraseTags_tag {v : Bytes} (h : ch '>' ∉ v) (s : Bytes) :
    eraseTags false (ch '<' :: (v ++ ch '>' :: s)) = eraseTags false s := by
  have hin : eraseTags true (v ++ ch '>' :: s) = eraseTags false s := by
    induction v with
    | nil => rfl
    | cons c v ih =>
        rw [List.mem_cons, not_or] at h
        rw [List.cons_append, eraseTags, if_pos rfl, bne_iff_ne.mpr (Ne.symm h.1), ih h.2]
  rw [eraseTags, if_neg (by simp), if_pos rfl, hin]

theorem eraseTags_openTag (t : Tid) (s : Bytes) : eraseTags false (openTag t ++ s) = eraseTags false s := by
  cases t <;> rfl

theorem eraseTags_closeTag (t : Tid) (s : Bytes) : eraseTags false (closeTag t ++ s) = eraseTags false s := by
  cases t <;> rfl

theorem eraseTags_anchorTag (target s : Bytes) : eraseTags false (anchorTag target ++ s) = eraseTags false s := by
  have hopen : ascii "<a href=\"" = ch '<' :: ascii "a href=\"" := by decide +kernel
  have hend : ascii "\">" = [ch '"', ch '>'] := by decide +kernel
  have hplain : ch '>' ∉ ascii "a href=\"" ++ escaped target ++ [ch '"'] := by
    have hgt := (escapedText_escaped target).gt
    have hhref : ch '>' ∉ ascii "a href=\"" := by decide +kernel
    have hquot : ch '>' ≠ ch '"' := by decide
    simp [hgt, hhref, hquot]
  have htag := eraseTags_tag hplain s
  rw [anchorTag, hopen, hend]
  simpa using htag

theorem eraseTags_closeTags (stack : List Tid) : eraseTags false (stack.flatMap closeTag) = [] := by
  induction stack with
  | nil => rfl
  | cons t stack ih => rw [List.flatMap_cons, eraseTags_closeTag, ih]

/-! ## The scan of a segment -/

/-- How much longer than its segment an output may be. -/
def segmentGrowth : Nat := 6 * hrefBufSize

/-- The scanner goes over `u`, whatever follows: what it writes shows `v` when the tags are erased, and is
    not much longer than `u`, the closing tags included. -/
def Scans (stack : List Tid) (u v : Bytes) : Prop :=
  ∃ w stack', Tid.br ∉ stack'
    ∧ (∀ rest out, Emits rest stack' out → Emits (u ++ rest) stack (w ++ out))
    ∧ w.length + (stack'.flatMap closeTag).length ≤ segmentGrowth * u.length + (stack.flatMap closeTag).length
    ∧ ∀ out, eraseTags false (w ++ out) = v ++ eraseTags false out

section

variable {stack : List Tid} {u : Bytes}

/-- Markup that only moves the cursor. -/
theorem Scans.of_skip (hbr : Tid.br ∉ stack) (h : ∀ rest, Steps (u ++ rest) stack [] rest stack) : Scans stack u [] := by
  refine ⟨[], stack, hbr, fun rest out hout => Emits.step (h rest) hout, ?_, fun out => rfl⟩
  rw [List.length_nil]
  omega

theorem Scans.text (hbr : Tid.br ∉ stack) {s : Bytes} (hs : ch '<' ∉ s) : Scans stack s (escaped s) := by
  have hle := length_escaped_le s
  refine ⟨escaped s, stack, hbr, fun rest out hout => hout.text hs, ?_, ?_⟩
  · simp only [segmentGrowth, hrefBufSize]
    omega
  exact eraseTags_text (escapedText_escaped s).lt

theorem length_openText (n : TagName) (attrs : TagAttrs) : 3 ≤ (openText n attrs).length := by
  have hne := List.length_pos_iff.mpr n.ne
  simp only [openText, List.length_cons, List.length_append, List.length_nil]
  omega

theorem length_anchorTag_le {target : Bytes} (h : target.length < hrefBufSize) :
    (anchorTag target).length + (closeTag .a).length ≤ segmentGrowth * 3 := by
  have hle := length_escaped_le target
  have hclose : (closeTag .a).length = 4 := by decide +kernel
  simp only [hrefBufSize] at h
  simp only [length_anchorTag, hclose, segmentGrowth, hrefBufSize]
  omega

/-- A link is written if it has a safe target that fits, and dropped if not. -/
theorem Scans.link (hbr : Tid.br ∉ stack) (n : TagName) (attrs : TagAttrs)
    (hclass : classifyTag n.bytes = some (.a, false)) (hlink : AttrText (attrs.bytes ++ [ch '>']))
    (hroom : stack.length < stackSize) : Scans stack (openText n attrs) [] := by
  obtain ⟨fuel, href, hparse⟩ := (parseAnchorHref_returns_iff hrefBufSize _).mpr hlink
  by_cases hempty : cstr href = []
  · exact .of_skip hbr fun rest => .noLink hclass hparse hempty hroom
  have hshort : (cstr href).length < hrefBufSize :=
    Nat.lt_of_le_of_lt (length_cstr_le href) (parseAnchorHref_length (by decide) hparse)
  have hlen := length_anchorTag_le hshort
  have htag := Nat.mul_le_mul_left segmentGrowth (length_openText n attrs)
  refine ⟨anchorTag (cstr href), .a :: stack, by simp [hbr],
    fun rest out hout => .step (.link hclass hparse hempty hroom) hout, ?_, eraseTags_anchorTag _⟩
  rw [List.flatMap_cons, List.length_append]
  omega

theorem Scans.open (hbr : Tid.br ∉ stack) (n : TagName) (attrs : TagAttrs) (hsafe : tagIsDangerous n.bytes = false)
    (hlink : tagNameEqLc n.bytes (ascii "a") = true → AttrText (attrs.bytes ++ [ch '>'])) :
    Scans stack (openText n attrs) [] := by
  have hlen := length_openText n attrs
  cases hclass : classifyTag n.bytes with
  | none => exact .of_skip hbr fun rest => .unknown hsafe hclass
  | some c =>
      obtain ⟨t, void⟩ := c
      obtain rfl := classifyTag_isVoid hclass
      by_cases ht : t = .br
      · subst ht
        have hbrLen : (ascii "<br>").length = 4 := by decide +kernel
        refine ⟨ascii "<br>", stack, hbr, fun rest out hout => .step (.br hsafe hclass) hout, ?_, fun out => rfl⟩
        simp only [segmentGrowth, hrefBufSize]
        omega
      rw [decide_eq_false ht] at hclass
      by_cases hroom : stack.length < stackSize
      · by_cases ha : t = .a
        · subst ha
          exact .link hbr n attrs hclass (hlink (classifyTag_eq_anchor.mp hclass).1) hroom
        · have htag : (openTag t).length + (closeTag t).length ≤ 13 := by cases t <;> decide
          refine ⟨openTag t, t :: stack, by simp [hbr, Ne.symm ht],
            fun rest out hout => .step (.open hsafe ha hclass hroom) hout, ?_, eraseTags_openTag t⟩
          simp only [segmentGrowth, hrefBufSize]
          rw [List.flatMap_cons, List.length_append]
          omega
      · exact .of_skip hbr fun rest => .full hsafe hclass (Nat.le_of_not_lt hroom)

theorem Scans.close (hbr : Tid.br ∉ stack) (n : TagName) : Scans stack (closeText n) [] := by
  by_cases hmatch : ∃ t, stack.head? = some t ∧ ∃ void, classifyTag n.bytes = some (t, void)
  · obtain ⟨t, htop, void, hclass⟩ := hmatch
    obtain ⟨stack', rfl⟩ := List.head?_eq_some_iff.mp htop
    rw [List.mem_cons, not_or] at hbr
    refine ⟨closeTag t, stack', hbr.2, fun rest out hout => .step (.close (Ne.symm hbr.1) hclass) hout, ?_,
      eraseTags_closeTag t⟩
    rw [List.flatMap_cons, List.length_append]
    omega
  · refine .of_skip hbr fun rest => .stray ?_
    intro t htop void hclass
    exact absurd ⟨t, htop, void, hclass⟩ hmatch

/-- **Every segment but a void tag is scanned to its end**, whatever follows and whatever is open. -/
theorem Segment.scan (hbr : Tid.br ∉ stack) (seg : Segment) (hvoid : ¬ seg.IsVoid) :
    Scans stack seg.bytes seg.visible := by
  cases seg with
  | text s hs => exact .text hbr hs
  | opening n attrs hsafe hlink => exact .open hbr n attrs hsafe hlink
  | closing n => exact .close hbr n
  | comment body hbody => exact .of_skip hbr fun rest => .comment hbody stack
  | element n attrs body close space hdanger hbody hclose =>
      refine .of_skip hbr fun rest => ?_
      have hskip := skipDangerousContent_body hclose space rest hbody
      have hstep : Steps (openText n attrs ++ (body ++ (closeTextWith close space ++ rest))) stack []
          (skipDangerousContent (body ++ (closeTextWith close space ++ rest)) n.lower) stack :=
        .danger (dangerousTagLc_eq hdanger)
      rw [hskip] at hstep
      simpa only [Segment.bytes, List.append_assoc] using hstep
  | void n attrs hv => exact absurd trivial hvoid

end

/-! ## The scan of a description -/

/-- How the scanner gets through the segments: at a void tag it goes on behind the next closing tag of its
    name, or at the end, and that is the end of a segment. The segments it drops there satisfy `Dropped`. -/
inductive Reads (Dropped : List Segment → Prop) : List Segment → Prop where
  | nil : Reads Dropped []
  | cons {seg : Segment} {segs : List Segment} (hvoid : ¬ seg.IsVoid) (h : Reads Dropped segs) :
      Reads Dropped (seg :: segs)
  | void {n : TagName} {attrs : TagAttrs} {hv : n.lower ∈ voidTags} {dropped rest : List Segment}
      (hresume : skipDangerousContent (bytesOf (dropped ++ rest)) n.lower = bytesOf rest)
      (hdropped : Dropped dropped) (h : Reads Dropped rest) :
      Reads Dropped (.void n attrs hv :: (dropped ++ rest))

/-- No closing tag of a void tag stands inside of a later segment, unless it ends it. -/
def Aligned : List Segment → Prop := Reads fun _ => True

/-- And no text stands between a void tag and the place where the scanner goes on. -/
def Lossless : List Segment → Prop := Reads fun dropped => shown dropped = []

theorem bytesOf_append (segs segs' : List Segment) : bytesOf (segs ++ segs') = bytesOf segs ++ bytesOf segs' :=
  List.flatMap_append

theorem shown_append (segs segs' : List Segment) : shown (segs ++ segs') = shown segs ++ shown segs' :=
  List.flatMap_append

/-- What the scanner makes of the segments. Erasing the tags gives no more than the text that should be seen,
    and all of it just when none was dropped. -/
theorem reads_emits {Dropped : List Segment → Prop} {segs : List Segment} (h : Reads Dropped segs)
    {stack : List Tid} (hbr : Tid.br ∉ stack) :
    ∃ out, Emits (bytesOf segs) stack out
      ∧ out.length ≤ segmentGrowth * (bytesOf segs).length + (stack.flatMap closeTag).length
      ∧ (eraseTags false out).length ≤ (shown segs).length
      ∧ (eraseTags false out = shown segs → Lossless segs)
      ∧ ((∀ dropped, Dropped dropped → shown dropped = []) → eraseTags false out = shown segs) := by
  induction h generalizing stack with
  | nil =>
      have herase := eraseTags_closeTags stack
      refine ⟨stack.flatMap closeTag, .nil hbr, Nat.le_add_left .., ?_, fun _ => .nil, fun _ => herase⟩
      rw [herase]
      exact Nat.zero_le _
  | @cons seg segs hvoid _ ih =>
      obtain ⟨w, stack', hbr', hemits, hlen, herase⟩ := seg.scan hbr hvoid
      obtain ⟨out, hout, hsize, hle, hlossless, hall⟩ := ih hbr'
      have hbytes : bytesOf (seg :: segs) = seg.bytes ++ bytesOf segs := List.flatMap_cons
      have hshown : shown (seg :: segs) = seg.visible ++ shown segs := List.flatMap_cons
      rw [hbytes, hshown]
      refine ⟨w ++ out, hemits _ _ hout, ?_, ?_, fun heq => ?_, fun hdropped => ?_⟩
      · simp only [List.length_append, Nat.mul_add]
        omega
      · rw [herase]
        simp only [List.length_append]
        omega
      · rw [herase] at heq
        exact .cons hvoid (hlossless (List.append_cancel_left heq))
      · rw [herase, hall hdropped]
  | @void n attrs hv dropped rest hresume hdropped _ ih =>
      obtain ⟨out, hout, hsize, hle, hlossless, hall⟩ := ih hbr
      have hbytes : bytesOf (.void n attrs hv :: (dropped ++ rest))
          = openText n attrs ++ bytesOf (dropped ++ rest) := List.flatMap_cons
      have hshown : shown (.void n attrs hv :: (dropped ++ rest)) = shown dropped ++ shown rest :=
        shown_append dropped rest
      have hstep : Steps (openText n attrs ++ bytesOf (dropped ++ rest)) stack [] (bytesOf rest) stack := by
        have hname : dangerousTagLc n.bytes = some n.lower := dangerousTagLc_eq (tagIsDangerous_of_void hv)
        rw [← hresume]
        exact .danger hname
      rw [hbytes, hshown]
      refine ⟨out, Emits.step hstep hout, ?_, ?_, fun heq => ?_, fun hno => ?_⟩
      · rw [bytesOf_append]
        simp only [List.length_append, Nat.mul_add]
        omega
      · rw [List.length_append]
        omega
      · have hnone : shown dropped = [] := by
          rw [heq, List.length_append] at hle
          exact List.length_eq_zero_iff.mp (by omega)
        rw [hnone, List.nil_append] at heq
        exact .void hresume hnone (hlossless heq)
      · rw [hno dropped hdropped, hall hno, List.nil_append]

/-- Segments without void tags are read without loss. -/
theorem lossless_of_no_void {segs : List Segment} (h : ∀ seg ∈ segs, ¬ seg.IsVoid) : Lossless segs := by
  induction segs with
  | nil => exact .nil
  | cons seg segs ih =>
      rw [List.forall_mem_cons] at h
      exact .cons h.1 (ih h.2)

/-! ## The call -/

/-- The call succeeds with `out` at every limit that holds it, and fails at every other. -/
def SanitizesTo (input out : Bytes) : Prop :=
  ∀ maxOutTotal, ∃ fuel, updateHtmlSanitizeAlloc memory maxOutTotal fuel input
    = some (if out.length + 1 ≤ maxOutTotal then some out else none)

/-- The segments are sanitized to an output that shows their text: without its tags it is the escaped text of the
    segments, with nothing lost and nothing added. -/
def ShowsText (segs : List Segment) : Prop :=
  ∃ out, SanitizesTo (bytesOf segs) out ∧ eraseTags false out = shown segs

theorem SanitizesTo.unique {input out out' : Bytes} (h : SanitizesTo input out) (h' : SanitizesTo input out') :
    out = out' := by
  obtain ⟨fuel, hfuel⟩ := h (out.length + out'.length + 1)
  obtain ⟨fuel', hfuel'⟩ := h' (out.length + out'.length + 1)
  rw [if_pos (by omega)] at hfuel hfuel'
  exact Option.some.inj (updateHtmlSanitizeAlloc_unique hfuel hfuel')

/-- Segments that the scanner gets through are sanitized; the text is shown just when none was dropped. -/
theorem reads_sanitizes {Dropped : List Segment → Prop} {segs : List Segment} (h : Reads Dropped segs)
    (hlen : (bytesOf segs).length ≤ htmlDescMaxIn) :
    ∃ out, SanitizesTo (bytesOf segs) out ∧ (eraseTags false out = shown segs → Lossless segs)
      ∧ ((∀ dropped, Dropped dropped → shown dropped = []) → eraseTags false out = shown segs) := by
  obtain ⟨out, hout, hsize, _, hlossless, hall⟩ := reads_emits h List.not_mem_nil
  refine ⟨out, hout.sanitize hlen ?_, hlossless, hall⟩
  have hmax : segmentGrowth * htmlDescMaxIn < halfSize := by decide +kernel
  have hin := Nat.mul_le_mul_left segmentGrowth hlen
  simp only [List.flatMap_nil, List.length_nil] at hsize
  omega

/-- **The text of a description survives where no text stands behind a void tag** up to the place where the
    scanner goes on, and only there, as long as that place is the end of a segment. -/
theorem sanitize_segments_iff (segs : List Segment) (hlen : (bytesOf segs).length ≤ htmlDescMaxIn) :
    (Lossless segs → ShowsText segs) ∧ (Aligned segs → ShowsText segs → Lossless segs) := by
  constructor
  · intro h
    obtain ⟨out, hout, _, hall⟩ := reads_sanitizes h hlen
    exact ⟨out, hout, hall fun dropped hnone => hnone⟩
  · rintro haligned ⟨out, hout, hshown⟩
    obtain ⟨out', hout', hlossless, _⟩ := reads_sanitizes haligned hlen
    obtain rfl := hout.unique hout'
    exact hlossless hshown

def scriptName : TagName := ⟨ascii "script", by decide +kernel, by decide +kernel⟩

def imgName : TagName := ⟨ascii "img", by decide +kernel, by decide +kernel⟩

/-- ` src="a.png"`. -/
def imgAttrs : TagAttrs where
  bytes := ch ' ' :: (ascii "src=" ++ ch '"' :: (ascii "a.png" ++ [ch '"']))
  apart := by decide +kernel
  closed := .byte (by decide) (by decide) (.byte (by decide) (by decide) (.byte (by decide) (by decide)
    (.byte (by decide) (by decide) (.byte (by decide) (by decide)
      (.quoted (by decide) (by decide +kernel) .nil)))))

theorem sanitize_segments_iff_sample :
    ∃ segs, bytesOf segs = ascii "a & <b>b</b><!-- c --><script>1 < 2</script>d<img src=\"a.png\">"
      ∧ shown segs = ascii "a &amp; bd" ∧ ShowsText segs := by
  refine ⟨[.text (ascii "a & ") (by decide +kernel), .opening (.of .b) .none (by decide +kernel) (fun h => absurd h (by decide +kernel)),
    .text (ascii "b") (by decide +kernel), .closing (.of .b),
    .comment (ascii " c ") (by decide +kernel),
    .element scriptName .none (ascii "1 < 2") scriptName .none (by decide +kernel) (.of_slash (by decide +kernel)) rfl,
    .text (ascii "d") (by decide +kernel), .void imgName imgAttrs (by decide +kernel)],
    by decide +kernel, by decide +kernel, (sanitize_segments_iff _ (by decide +kernel)).1 ?_⟩
  refine .cons id (.cons id (.cons id (.cons id (.cons id (.cons id (.cons id ?_))))))
  have hend : skipDangerousContent (bytesOf ([] ++ [])) imgName.lower = bytesOf [] := rfl
  exact .void hend rfl .nil

/-- **The notes behind an image are lost**: the scanner looks for a closing tag that an image never has. -/
theorem sanitize_void_drops_text :
    ∃ segs, bytesOf segs = ascii "pre<img src=\"a.png\">post" ∧ shown segs = ascii "prepost"
      ∧ updateHtmlSanitizeAlloc memory htmlDescMaxOut 9 (bytesOf segs) = some (some (ascii "pre"))
      ∧ ¬ ShowsText segs := by
  have hrun : updateHtmlSanitizeAlloc memory htmlDescMaxOut 9 (ascii "pre<img src=\"a.png\">post")
      = some (some (ascii "pre")) := by decide +kernel
  have hbytes : bytesOf [.text (ascii "pre") (by decide +kernel), .void imgName imgAttrs (by decide +kernel),
      .text (ascii "post") (by decide +kernel)] = ascii "pre<img src=\"a.png\">post" := by decide +kernel
  refine ⟨_, hbytes, by decide +kernel, by rw [hbytes]; exact hrun, ?_⟩
  rintro ⟨out, hout, hshown⟩
  rw [hbytes] at hout
  obtain ⟨fuel, hfuel⟩ := hout htmlDescMaxOut
  have hsame := updateHtmlSanitizeAlloc_unique hrun hfuel
  split at hsame
  · obtain rfl := Option.some.inj hsame
    exact absurd hshown (by decide +kernel)
  · cases hsame

end LibUpdate
