import LibUpdate.Foundation.Loop
import LibUpdate.Html.Buf

/-!
# `Html.Sanitize` — the HTML sanitizer (`update_html.c`)

A cursor `p` is the bytes from `p` to `end`; a span between two cursors is `spanTo`. The scanning helpers
go forward byte by byte and are recursions on those bytes. The attribute loop of `parse_anchor_href` and
the main loop are not: how far they move depends on the helpers, so they are loops in the sense of
`Foundation.Loop`, and `none` says that the fuel ran out.

Where a C function returns -1 its model returns `none`, and after fuel has been spent `some none`.
-/

namespace LibUpdate

/-- `UPDATE_HTML_DESC_MAX_IN`. -/
def htmlDescMaxIn : Nat := 512 * 1024

/-! ## Tags -/

inductive Tid where
  | b
  | i
  | u
  | br
  | p
  | ul
  | ol
  | li
  | a
  | span
  deriving DecidableEq, Repr

/-- `s_tag_open`. -/
def tagOpen : Tid → Bytes
  | .b => ascii "b"
  | .i => ascii "i"
  | .u => ascii "u"
  | .br => ascii "br"
  | .p => ascii "p"
  | .ul => ascii "ul"
  | .ol => ascii "ol"
  | .li => ascii "li"
  | .a => ascii "a"
  | .span => ascii "span"

def asciiLowerUc (c : UInt8) : UInt8 := if ch 'A' ≤ c && c ≤ ch 'Z' then c - ch 'A' + ch 'a' else c

def tagNameEqLc (s litLc : Bytes) : Bool := s.map asciiLowerUc == litLc

def isTagnameChar (c : UInt8) : Bool :=
  (ch 'a' ≤ c && c ≤ ch 'z') || (ch 'A' ≤ c && c ≤ ch 'Z') || (ch '0' ≤ c && c ≤ ch '9')
    || c == ch '-' || c == ch ':'

def isAttrNameChar (c : UInt8) : Bool := isTagnameChar c || c == ch '_'

/-- The elements that are dropped with their content, as `danger` and as the keys of `map`. -/
def dangerTags : List Bytes :=
  [ascii "script", ascii "style", ascii "iframe", ascii "img", ascii "video", ascii "audio",
    ascii "object", ascii "embed", ascii "link", ascii "meta", ascii "base", ascii "form", ascii "input",
    ascii "textarea", ascii "button", ascii "svg", ascii "math"]

def tagIsDangerous (name : Bytes) : Bool := dangerTags.any (tagNameEqLc name)

def dangerousTagLc (name : Bytes) : Option Bytes := dangerTags.find? (tagNameEqLc name)

/-- `classify_tag`: the tag, and `is_void`. -/
def classifyTag (name : Bytes) : Option (Tid × Bool) :=
  if tagNameEqLc name (ascii "b") then some (.b, false)
  else if tagNameEqLc name (ascii "i") then some (.i, false)
  else if tagNameEqLc name (ascii "u") then some (.u, false)
  else if tagNameEqLc name (ascii "br") then some (.br, true)
  else if tagNameEqLc name (ascii "p") then some (.p, false)
  else if tagNameEqLc name (ascii "ul") then some (.ul, false)
  else if tagNameEqLc name (ascii "ol") then some (.ol, false)
  else if tagNameEqLc name (ascii "li") then some (.li, false)
  else if tagNameEqLc name (ascii "a") then some (.a, false)
  else if tagNameEqLc name (ascii "span") then some (.span, false)
  else none

/-! ## Moving the cursor -/

/-- The span from one cursor to a later one. -/
def spanTo (p q : Bytes) : Bytes := p.take (p.length - q.length)

def skipWs (p : Bytes) : Bytes := p.dropWhile isspace

/-- The loop of `skip_to_tag_end`; the flags are `dq` and `sq`. -/
def scanToTagEnd (dq sq : Bool) : Bytes → Bytes
  | [] => []
  | c :: p =>
      -- inside of quotes a `>` does not end the tag
      if dq then scanToTagEnd (c != ch '"') sq p
      else if sq then scanToTagEnd dq (c != ch '\'') p
      else if c = ch '"' then scanToTagEnd true sq p
      else if c = ch '\'' then scanToTagEnd dq true p
      else if c = ch '>' then p
      else scanToTagEnd dq sq p

def skipToTagEnd (p : Bytes) : Bytes := scanToTagEnd false false p

/-- `find_close_tag_open`; the tag name is not empty. -/
def findCloseTagOpen (tagLc : Bytes) : Bytes → Option Bytes
  | [] => none
  | c :: p =>
      if (c :: p).length < 2 + tagLc.length then none
      else if c ≠ ch '<' then findCloseTagOpen tagLc p
      else if p.head? ≠ some (ch '/') then findCloseTagOpen tagLc p
      else if tagNameEqLc ((p.drop 1).take tagLc.length) tagLc
          && !((p.drop (1 + tagLc.length)).head?.any isTagnameChar) then some (c :: p)
      else findCloseTagOpen tagLc p

def skipDangerousContent (p tagLc : Bytes) : Bytes :=
  match findCloseTagOpen tagLc p with
  | none => []
  | some opened => skipToTagEnd opened

/-- The comment loop of `update_html_sanitize_alloc`, from behind `<!--`. -/
def skipComment : Bytes → Bytes
  | c₀ :: c₁ :: c₂ :: c =>
      if c₀ = ch '-' && c₁ = ch '-' && c₂ = ch '>' then c else skipComment (c₁ :: c₂ :: c)
  | _ => []

def isQuote (c : UInt8) : Bool := c == ch '"' || c == ch '\''

/-- The bytes an unquoted attribute value is made of. -/
def isUnquotedChar (c : UInt8) : Bool := !isspace c && c != ch '>' && c != ch '/'

def skipAttrValue : Bytes → Bytes
  | [] => []
  | c :: p =>
      if isQuote c then (p.dropWhile (· != c)).drop 1
      else (c :: p).dropWhile isUnquotedChar

/-! ## Link targets -/

def startsCi : Bytes → Bytes → Bool
  | _, [] => true
  | [], _ :: _ => false
  | c :: s, l :: lit => asciiLowerUc c == l && startsCi s lit

def hrefIsSafe (h : Bytes) : Bool :=
  let h := h.dropWhile isspace
  if h = [] then false
  else if h.head? = some (ch '#') then true
  else if startsCi h (ascii "http://") then true
  else if startsCi h (ascii "https://") then true
  else if startsCi h (ascii "mailto:") then true
  else if startsCi h (ascii "javascript:") then false
  else if startsCi h (ascii "data:") then false
  else if startsCi h (ascii "vbscript:") then false
  else false

def attrNameIsDanger (name : Bytes) : Bool :=
  startsCi name (ascii "on") || name.any (· == ch '(')

/-- The attribute loop: its cursor, and `href_out` without the NUL that ends it. -/
structure AttrScan where
  p : Bytes
  hrefOut : Bytes
  deriving DecidableEq, Repr

/-- An attribute value at the cursor: the value, and the cursor behind it. -/
def takeAttrValue : Bytes → Bytes × Bytes
  | [] => ([], [])
  | c :: p =>
      if isQuote c then (p.takeWhile (· != c), (p.dropWhile (· != c)).drop 1)
      else ((c :: p).takeWhile isUnquotedChar, (c :: p).dropWhile isUnquotedChar)

/-- What follows `name =` in `parse_anchor_href`; `p` is at the value. -/
def attrValueRound (hrefCap : Nat) (name : Bytes) (hrefOut p : Bytes) : AttrScan :=
  if name ≠ [] && attrNameIsDanger name then ⟨skipAttrValue p, hrefOut⟩
  else if tagNameEqLc name (ascii "href") then
    -- only the first href that is safe is kept
    if cstr hrefOut ≠ [] then ⟨skipAttrValue p, hrefOut⟩
    else
      let (v, p) := takeAttrValue p
      -- an href that does not fit is left out like one that is not safe
      if hrefIsSafe v && v.length + 1 ≤ hrefCap then ⟨p, v⟩ else ⟨p, hrefOut⟩
  else ⟨skipAttrValue p, hrefOut⟩

/-- One pass of the attribute loop. -/
def attrRound (hrefCap : Nat) (st : AttrScan) : Round AttrScan Bytes :=
  match skipWs st.p with
  | [] => .leave st.hrefOut
  | c :: p =>
      if c = ch '>' then .leave st.hrefOut
      else if c = ch '/' && p.head? = some (ch '>') then .leave st.hrefOut
      else
        -- at a byte that begins no name, the name is empty and the cursor stays
        let name := (c :: p).takeWhile isAttrNameChar
        match skipWs ((c :: p).dropWhile isAttrNameChar) with
        | [] => .again ⟨[], st.hrefOut⟩
        | d :: q =>
            if d ≠ ch '=' then .again ⟨d :: q, st.hrefOut⟩
            else
              match skipWs q with
              | [] => .leave st.hrefOut
              | v :: q => .again (attrValueRound hrefCap name st.hrefOut (v :: q))

/-- `parse_anchor_href`: the first safe href of the attribute text, or nothing. -/
def parseAnchorHref (hrefCap fuel : Nat) (text : Bytes) : Option Bytes :=
  whileLoop (fun _ st => some (attrRound hrefCap st)) fuel ⟨skipWs text, []⟩

/-! ## Writing -/

/-- The character references of `emit_html_escaped`; every other byte stands for itself. -/
def escapeByte (c : UInt8) : Bytes :=
  if c = ch '&' then ascii "&amp;"
  else if c = ch '<' then ascii "&lt;"
  else if c = ch '>' then ascii "&gt;"
  else if c = ch '"' then ascii "&quot;"
  else [c]

def emitHtmlEscaped (alloc : Nat → Bool) (b : Buf) : Bytes → Option Buf
  | [] => some b
  | c :: s =>
      match bufAppend alloc b (escapeByte c) with
      | none => none
      | some b => emitHtmlEscaped alloc b s

/-- Several appends, where the first failure ends the call. -/
def bufAppendAll (alloc : Nat → Bool) (b : Buf) : List Bytes → Option Buf
  | [] => some b
  | s :: rest =>
      match bufAppend alloc b s with
      | none => none
      | some b => bufAppendAll alloc b rest

/-- The results of `buf_emit_open_tag`: 0, 1 and -1. -/
inductive Emitted where
  | emitted (b : Buf)
  | skipped
  | failed

def Emitted.ofAppend : Option Buf → Emitted
  | some b => .emitted b
  | none => .failed

def hrefBufSize : Nat := 2048

/-- The `<a href="...">` that `buf_emit_open_tag` writes. -/
def bufEmitAnchor (alloc : Nat → Bool) (b : Buf) (href : Bytes) : Option Buf :=
  match bufAppend alloc b (ascii "<a href=\"") with
  | none => none
  | some b =>
      match emitHtmlEscaped alloc b href with
      | none => none
      | some b => bufAppend alloc b (ascii "\">")

/-- `buf_emit_open_tag`; `inner` is the attribute text. -/
def bufEmitOpenTag (alloc : Nat → Bool) (fuel : Nat) (b : Buf) (tid : Tid) (inner : Bytes)
    (isVoidTag : Bool) : Option Emitted :=
  if isVoidTag && tid = .br then some (.ofAppend (bufAppend alloc b (ascii "<br>")))
  else if tid = .a then
    match parseAnchorHref hrefBufSize fuel inner with
    | none => none
    | some hrefBuf =>
        -- an anchor without a safe link: the tag is dropped, its text stays
        if cstr hrefBuf = [] then some .skipped
        else some (.ofAppend (bufEmitAnchor alloc b (cstr hrefBuf)))
  else some (.ofAppend (bufAppendAll alloc b [ascii "<", tagOpen tid, ascii ">"]))

def bufEmitCloseTag (alloc : Nat → Bool) (b : Buf) (tid : Tid) : Option Buf :=
  if tid = .br then some b else bufAppendAll alloc b [ascii "</", tagOpen tid, ascii ">"]

/-! ## The main loop -/

/-- `sizeof stack / sizeof stack[0]`. -/
def stackSize : Nat := 64

/-- The state of the main loop: the cursor, the stack of the open tags (the top first) and the buffer. -/
structure Scan where
  p : Bytes
  stack : List Tid
  buf : Buf
  stack_fits : stack.length ≤ stackSize

/-- The state in which the main loop starts. -/
def Scan.start (input : Bytes) (b : Buf) : Scan := ⟨input, [], b, Nat.zero_le _⟩

/-- Writes `text`; the cursor goes to `p`. -/
def Scan.writeText (alloc : Nat → Bool) (st : Scan) (text p : Bytes) : Round Scan (Option Scan) :=
  match bufAppend alloc st.buf text with
  | none => .leave none
  | some buf => .again { st with buf, p }

/-- The pass at a closing tag; `lt` is at its `<`, and `afterSlash` behind its `/`. -/
def closeTagRound (alloc : Nat → Bool) (st : Scan) (lt afterSlash : Bytes) : Round Scan (Option Scan) :=
  let name := (skipWs afterSlash).takeWhile isTagnameChar
  -- a `<` that begins no tag is text
  if name = [] then st.writeText alloc (ascii "&lt;") (lt.drop 1)
  else
    let p := skipToTagEnd lt
    match classifyTag name with
    | none => .again { st with p }
    | some (tid, _) =>
        if tid = .br then .again { st with p }
        else
          match st with
          | ⟨_, [], buf, hfits⟩ => .again ⟨p, [], buf, hfits⟩
          | ⟨_, top :: stack, buf, hfits⟩ =>
              -- a closing tag that is not that of the open element is dropped
              if top = tid then
                match bufEmitCloseTag alloc buf tid with
                | none => .leave none
                | some buf => .again ⟨p, stack, buf, by rw [List.length_cons] at hfits; omega⟩
              else .again ⟨p, top :: stack, buf, hfits⟩

/-- The pass at an opening tag; `lt` is at its `<`. -/
def openTagRound (alloc : Nat → Bool) (fuel : Nat) (st : Scan) (lt : Bytes) :
    Option (Round Scan (Option Scan)) :=
  let tagEnd := skipToTagEnd lt
  let q := skipWs (lt.drop 1)
  let name := q.takeWhile isTagnameChar
  let q := q.dropWhile isTagnameChar
  if name = [] then some (st.writeText alloc (ascii "&lt;") (lt.drop 1))
  else if tagIsDangerous name then
    match dangerousTagLc name with
    -- the content goes with the element, up to its closing tag or the end of the input
    | some tlc => some (.again { st with p := skipDangerousContent tagEnd tlc })
    | none => some (.again { st with p := tagEnd })
  else
    match classifyTag name with
    | none => some (.again { st with p := tagEnd })
    | some (tid, isVoid) =>
        if isVoid && tid = .br then
          (bufEmitOpenTag alloc fuel st.buf tid (spanTo q tagEnd) true).map fun
            | .failed => .leave none
            | .skipped => .again { st with p := tagEnd }
            | .emitted buf => .again { st with p := tagEnd, buf }
        -- elements that nest deeper are dropped, as `sp` stays below the size of the stack
        else if hfull : st.stack.length ≥ stackSize then some (.again { st with p := tagEnd })
        else
          (bufEmitOpenTag alloc fuel st.buf tid (spanTo q tagEnd) false).map fun
            | .failed => .leave none
            | .skipped => .again { st with p := tagEnd }
            | .emitted buf => .again ⟨tagEnd, tid :: st.stack, buf, by rw [List.length_cons]; omega⟩

/-- The pass at a `<`. -/
def markupRound (alloc : Nat → Bool) (fuel : Nat) (st : Scan) (lt : Bytes) :
    Option (Round Scan (Option Scan)) :=
  if (ascii "<!--").isPrefixOf lt then some (.again { st with p := skipComment (lt.drop 4) })
  else if (lt.drop 1).head? = some (ch '!') || (lt.drop 1).head? = some (ch '?') then
    some (.again { st with p := skipToTagEnd lt })
  else if (lt.drop 1).head? = some (ch '/') then some (closeTagRound alloc st lt (lt.drop 2))
  else openTagRound alloc fuel st lt

/-- One pass of the main loop: the text up to the next `<`, and what starts there. The loop is left with
    `none` on a failure. -/
def sanitizeRound (alloc : Nat → Bool) (fuel : Nat) (st : Scan) : Option (Round Scan (Option Scan)) :=
  if st.p = [] then some (.leave (some st))
  else
    match emitHtmlEscaped alloc st.buf (st.p.takeWhile (· != ch '<')) with
    -- text between the tags is escaped
    | none => some (.leave none)
    | some buf =>
        match st.p.dropWhile (· != ch '<') with
        | [] => some (.leave (some { st with buf }))
        | c :: rest => markupRound alloc fuel { st with buf } (c :: rest)

/-- The loop behind the main loop: closes what is still open. -/
def closeAll (alloc : Nat → Bool) (b : Buf) : List Tid → Option Buf
  | [] => some b
  | t :: stack =>
      match bufEmitCloseTag alloc b t with
      | none => none
      | some b => closeAll alloc b stack

/-- `update_html_sanitize_alloc`: `some (some out)` for the return value 0, `some none` for -1. -/
def updateHtmlSanitizeAlloc (alloc : Nat → Bool) (maxOutTotal fuel : Nat) (input : Bytes) :
    Option (Option Bytes) :=
  if maxOutTotal = 0 || input.length > htmlDescMaxIn then some none
  else
    match bufInit alloc maxOutTotal with
    | none => some none
    | some b =>
        match whileLoop (sanitizeRound alloc) fuel (.start input b) with
        | none => none
        | some none => some none
        | some (some st) => some ((closeAll alloc st.buf st.stack).map Buf.d)

/-- `update_html_escape_plain_alloc`. -/
def updateHtmlEscapePlainAlloc (alloc : Nat → Bool) (maxOutTotal : Nat) (input : Bytes) : Option Bytes :=
  if maxOutTotal = 0 || input.length > htmlDescMaxIn then none
  else
    match bufInit alloc maxOutTotal with
    | none => none
    | some b => (emitHtmlEscaped alloc b input).map Buf.d

end LibUpdate
