import LibUpdate.Http.Framing
import LibUpdate.JsonMini

/-!
# `Http.Request` — URLs, requests and status lines

What is sent for a URL, and when an answer counts as success. A URL is taken apart at the first `/` behind
the scheme; only where there is one is a port looked for in front of it (`parseHttpUrl_roundTrip_iff`). The
host and the path go into the request as they are, so the request is one request where neither breaks a line
(`requests_iff`). The status is the first number of the status line, which is the version
(`parseStatus200_iff`).
-/

namespace LibUpdate

/-! ## Status lines -/

/-- `HTTP/<major>.<minor> SP <code> SP <reason>`, with a code of three digits. -/
structure StatusLine where
  major : Decimal
  minor : Decimal
  code : Bytes
  code_length : code.length = 3
  code_digits : ∀ c ∈ code, isDigitOf 10 c = true
  reason : Bytes
  one_line : ¬ crlf <:+: reason

namespace StatusLine

/-- What stands in the line behind the major version number. -/
def afterMajor (l : StatusLine) : Bytes :=
  ascii "." ++ l.minor.digits ++ ascii " " ++ l.code ++ ascii " "

def text (l : StatusLine) : Bytes := ascii "HTTP/" ++ (l.major.digits ++ (l.afterMajor ++ l.reason))

/-- The major version number reads as 200: it fits in a `long` and is 200 in 32 bits. -/
def MajorReads200 (l : StatusLine) : Prop := l.major.value < 0x8000000000000000 ∧ l.major.value % 0x100000000 = 200

instance (l : StatusLine) : Decidable l.MajorReads200 := inferInstanceAs (Decidable (_ ∧ _))

end StatusLine

/-- What has no CR in front of a text does not begin a CRLF. -/
theorem crlf_infix_append {x y : Bytes} (hx : ch '\r' ∉ x) : crlf <:+: x ++ y ↔ crlf <:+: y := by
  induction x with
  | nil => rfl
  | cons c x ih =>
      rw [List.mem_cons, not_or] at hx
      rw [List.cons_append, crlf_infix_cons (Ne.symm hx.1), ih hx.2]

/-- Digits are neither CR nor NUL. -/
theorem digits_plain {ds : Bytes} (h : ∀ c ∈ ds, isDigitOf 10 c = true) : ch '\r' ∉ ds ∧ (0 : UInt8) ∉ ds := by
  constructor
  · intro hc
    exact absurd (h _ hc) (by decide)
  · intro hc
    exact absurd (h _ hc) (by decide)

namespace StatusLine

variable (l : StatusLine)

theorem afterMajor_plain : ch '\r' ∉ l.afterMajor ∧ (0 : UInt8) ∉ l.afterMajor := by
  obtain ⟨hmr, hm0⟩ := digits_plain l.minor.decimal
  obtain ⟨hcr, hc0⟩ := digits_plain l.code_digits
  have hdot : ch '\r' ∉ ascii "." ∧ (0 : UInt8) ∉ ascii "." := by decide
  have hspace : ch '\r' ∉ ascii " " ∧ (0 : UInt8) ∉ ascii " " := by decide
  unfold afterMajor
  constructor
  · simp only [List.mem_append, not_or]
    exact ⟨⟨⟨⟨hdot.1, hmr⟩, hspace.1⟩, hcr⟩, hspace.1⟩
  · simp only [List.mem_append, not_or]
    exact ⟨⟨⟨⟨hdot.2, hm0⟩, hspace.2⟩, hc0⟩, hspace.2⟩

/-- The status line is one line. -/
theorem text_one_line : ¬ crlf <:+: l.text := by
  have hhttp : ch '\r' ∉ ascii "HTTP/" := by decide
  unfold text
  rw [crlf_infix_append hhttp, crlf_infix_append (digits_plain l.major.decimal).1,
    crlf_infix_append l.afterMajor_plain.1]
  exact l.one_line

theorem nul_mem_text : (0 : UInt8) ∈ l.text ↔ (0 : UInt8) ∈ l.reason := by
  have hhttp : (0 : UInt8) ∉ ascii "HTTP/" := by decide
  have hmajor := (digits_plain l.major.decimal).2
  have hafter := l.afterMajor_plain.2
  unfold text
  simp only [List.mem_append]
  constructor
  · rintro (h | h | h | h)
    · exact absurd h hhttp
    · exact absurd h hmajor
    · exact absurd h hafter
    · exact h
  · intro h
    exact Or.inr (Or.inr (Or.inr h))

/-- The number that `parse_status_200` reads is the major version number. -/
theorem atoi_major : atoi (l.text.dropWhile fun c => !isDigitOf 10 c) = 200 ↔ l.MajorReads200 := by
  have hhttp : ∀ c ∈ ascii "HTTP/", (!isDigitOf 10 c) = true := by decide +kernel
  have hdigit : ∀ c ∈ (l.major.digits ++ (l.afterMajor ++ l.reason)).head?, (!isDigitOf 10 c) = false := by
    obtain ⟨d, ds, hds, hd⟩ := l.major.exists_cons
    intro c hc
    rw [hds] at hc
    obtain rfl : d = c := Option.some.inj hc
    rw [hd]
    rfl
  have hdot : ∀ c ∈ (l.afterMajor ++ l.reason).head?, isDigitOf 10 c = false := by
    intro c hc
    obtain rfl : ch '.' = c := Option.some.inj hc
    decide
  rw [text, dropWhile_span hhttp hdigit, l.major.atoi_digits hdot, MajorReads200]
  simp only [Int.bmod]
  omega

end StatusLine

/-- The first line of a response head decides, and in it the major version number, if a reader sees all of
    the line. -/
theorem parseStatus200_head (l : StatusLine) (rest : Bytes) :
    parseStatus200 (cstr (l.text ++ (crlf ++ rest))) = true ↔ (0 : UInt8) ∉ l.reason ∧ l.MajorReads200 := by
  by_cases hnul : (0 : UInt8) ∈ l.reason
  · -- the line ends at the NUL, and there is no CRLF before it
    have hseen : cstr (l.text ++ (crlf ++ rest)) = cstr l.text := cstr_append_nul (l.nul_mem_text.mpr hnul) _
    have hnone : strstr crlf (cstr l.text) = none := by
      rw [strstr_none_iff]
      intro hin
      exact l.text_one_line (hin.trans (List.takeWhile_prefix _).isInfix)
    rw [hseen, parseStatus200, hnone]
    constructor
    · intro h
      cases h
    · intro h
      exact absurd hnul h.1
  · have htext : (0 : UInt8) ∉ l.text := fun h => hnul (l.nul_mem_text.mp h)
    have hseen : cstr (l.text ++ (crlf ++ rest)) = l.text ++ (crlf ++ cstr rest) := by
      rw [cstr_append htext, cstr_append (by decide)]
    have hend : strstr crlf (l.text ++ (crlf ++ cstr rest)) = some (crlf ++ cstr rest) :=
      strstr_crlf (cstr rest) l.text_one_line
    rw [hseen, parseStatus200, hend]
    simp only [take_before, Bool.and_eq_true, beq_iff_eq, l.atoi_major]
    constructor
    · rintro ⟨_, h⟩
      exact ⟨hnul, h⟩
    · rintro ⟨_, h⟩
      refine ⟨?_, h⟩
      rw [bne_iff_ne]
      intro hempty
      have hzero := l.atoi_major.mpr h
      rw [hempty] at hzero
      exact absurd hzero (by decide)

/-- **`parse_status_200` returns 0 exactly for the code 200** where "the code is 200" and "the major version
    number reads as 200, in a line without NUL" are both true or both false. -/
theorem parseStatus200_iff (l : StatusLine) (rest : Bytes) :
    (parseStatus200 (cstr (l.text ++ (crlf ++ rest))) = true ↔ l.code = ascii "200")
      ↔ (((0 : UInt8) ∉ l.reason ∧ l.MajorReads200) ↔ l.code = ascii "200") := by
  rw [parseStatus200_head]

/-- The status line of every success. -/
def okLine : StatusLine where
  major := ⟨ascii "1", by decide +kernel, by decide +kernel⟩
  minor := ⟨ascii "1", by decide +kernel, by decide +kernel⟩
  code := ascii "200"
  code_length := by decide +kernel
  code_digits := by decide +kernel
  reason := ascii "OK"
  one_line := by decide +kernel

/-- `HTTP/1.1 200 OK` does not count as success. -/
theorem parseStatus200_refuses_ok :
    okLine.text = ascii "HTTP/1.1 200 OK"
      ∧ ¬ ∀ l : StatusLine, ∀ rest,
        parseStatus200 (cstr (l.text ++ (crlf ++ rest))) = true ↔ l.code = ascii "200" := by
  refine ⟨by decide, ?_⟩
  intro h
  have hok := (h okLine []).mpr (by decide)
  exact absurd hok (by decide)

/-! ## URLs -/

/-- `scheme://host[:port]path`. -/
structure UrlParts where
  tls : Bool
  host : Bytes
  host_nonempty : host ≠ []
  host_plain : ∀ c ∈ host, c ≠ ch ':' ∧ c ≠ ch '/'
  port : Option Decimal
  port_range : ∀ n ∈ port, 1 ≤ n.value ∧ n.value ≤ 65535
  path : Bytes
  path_absolute : path = [] ∨ ∃ q, path = ch '/' :: q

namespace UrlParts

def scheme (tls : Bool) : Bytes := if tls then ascii "https://" else ascii "http://"

/-- `[:port]`. -/
def portText (u : UrlParts) : Bytes :=
  match u.port with
  | none => []
  | some n => ch ':' :: n.digits

def text (u : UrlParts) : Bytes := scheme u.tls ++ (u.host ++ u.portText ++ u.path)

/-- What the parts mean: the port of the scheme where none is named, and `/` for no path. -/
def meaning (u : UrlParts) : HttpUrl where
  host := u.host
  path := if u.path = [] then [ch '/'] else u.path
  tls := u.tls
  port := (u.port.map Decimal.value).getD (defaultPort u.tls)

end UrlParts

/-- The scheme is recognised. -/
theorem parseHttpUrl_scheme (tls : Bool) (p : Bytes) (hostcap pathcap : Nat) :
    parseHttpUrl (UrlParts.scheme tls ++ p) hostcap pathcap = parseHttpHost hostcap pathcap tls p := by
  cases tls with
  | true =>
      show parseHttpUrl (ascii "https://" ++ p) hostcap pathcap = _
      rw [parseHttpUrl, if_pos (List.prefix_append _ _)]
      rfl
  | false =>
      have hhttps : ¬ ascii "https://" <+: ascii "http://" ++ p := by
        intro h
        have hshort : ascii "https:" <+: ascii "http:/" ++ (ascii "/" ++ p) :=
          (List.prefix_append (ascii "https:") (ascii "//")).trans h
        have heq := List.prefix_of_prefix_length_le hshort (List.prefix_append (ascii "http:/") _) (by decide)
        exact absurd heq (by decide)
      show parseHttpUrl (ascii "http://" ++ p) hostcap pathcap = _
      rw [parseHttpUrl, if_neg hhttps, if_pos (List.prefix_append _ _)]
      rfl

namespace UrlParts

variable (u : UrlParts)

/-- There is no `/` in front of the path. -/
theorem authority_plain : ∀ c ∈ u.host ++ u.portText, (c != ch '/') = true := by
  intro c hc
  rw [bne_iff_ne]
  rcases List.mem_append.mp hc with hc | hc
  · exact (u.host_plain c hc).2
  · unfold portText at hc
    split at hc
    · cases hc
    · next n hn =>
      rcases List.mem_cons.mp hc with rfl | hc
      · decide
      · rintro rfl
        exact absurd (n.decimal _ hc) (by decide)

theorem path_head : ∀ c ∈ u.path.head?, (c != ch '/') = false := by
  intro c hc
  rcases u.path_absolute with h | ⟨q, h⟩
  · rw [h] at hc
    cases hc
  · rw [h] at hc
    obtain rfl : ch '/' = c := Option.some.inj hc
    decide

/-- The URL is cut in front of the path. -/
theorem authority_cut :
    (u.host ++ u.portText ++ u.path).takeWhile (· != ch '/') = u.host ++ u.portText
      ∧ (u.host ++ u.portText ++ u.path).dropWhile (· != ch '/') = u.path := by
  refine ⟨?_, dropWhile_span u.authority_plain u.path_head⟩
  rw [List.takeWhile_append_of_pos u.authority_plain]
  rcases u.path_absolute with h | ⟨q, h⟩
  · rw [h, List.takeWhile_nil, List.append_nil]
  · rw [h, List.takeWhile_cons_of_neg (by decide), List.append_nil]

/-- The host is cut in front of the port. -/
theorem host_cut : (u.host ++ u.portText).takeWhile (· != ch ':') = u.host := by
  have hhost : ∀ c ∈ u.host, (c != ch ':') = true := by
    intro c hc
    rw [bne_iff_ne]
    exact (u.host_plain c hc).1
  rw [List.takeWhile_append_of_pos hhost]
  unfold portText
  split
  · rw [List.takeWhile_nil, List.append_nil]
  · rw [List.takeWhile_cons_of_neg (by decide), List.append_nil]

/-- **A URL with a path** is read as it is meant, if it fits. -/
theorem parseHttpHost_path {hostcap pathcap : Nat} (hhost : u.host.length < hostcap)
    (hpath : u.path.length < pathcap) (hne : u.path ≠ []) :
    parseHttpHost hostcap pathcap u.tls (u.host ++ u.portText ++ u.path) = some u.meaning := by
  have hfits : ¬ u.host.length + 1 > hostcap := by omega
  have hfits' : ¬ u.path.length + 1 > pathcap := by omega
  obtain ⟨q, hq⟩ := u.path_absolute.resolve_left hne
  rw [parseHttpHost]
  simp only [u.authority_cut.1, u.authority_cut.2, u.host_cut, if_neg hne, if_neg hfits, if_neg hfits']
  cases hport : u.port with
  | none =>
      have htext : u.portText = [] := by rw [portText, hport]
      rw [htext, List.append_nil, if_neg (Nat.lt_irrefl _)]
      simp only [meaning, hport, Option.map_none, Option.getD_none, if_neg hne]
  | some n =>
      obtain ⟨hlow, hhigh⟩ := u.port_range n hport
      have htext : u.portText = ch ':' :: n.digits := by rw [portText, hport]
      have hlong : u.host.length < (u.host ++ u.portText).length := by
        rw [htext, List.length_append, List.length_cons]
        omega
      have hcolon : (u.host ++ u.portText ++ u.path).drop (u.host.length + 1) = n.digits ++ u.path := by
        rw [htext, List.append_assoc, List.drop_append, List.drop_of_length_le (by omega), Nat.add_sub_cancel_left]
        rfl
      have hstop : ∀ c ∈ u.path.head?, isDigitOf 10 c = false ∧ c ≠ ch 'x' ∧ c ≠ ch 'X' := by
        intro c hc
        rw [hq] at hc
        obtain rfl : ch '/' = c := Option.some.inj hc
        decide
      have hread : strtoull 10 (n.digits ++ u.path) % UInt32.size = n.value := by
        have hsize : UInt64.size = 18446744073709551616 := rfl
        have hsize' : UInt32.size = 4294967296 := rfl
        rw [n.strtoull_digits hstop, if_neg (by omega), Nat.mod_eq_of_lt (by omega)]
      have hzero : ¬ n.value = 0 := by omega
      simp only [hcolon, hread, if_pos hlong, if_neg hzero, meaning, hport, Option.map_some, Option.getD_some,
        if_neg hne]

/-- **A URL without a path**: everything behind the scheme is taken for the host. -/
theorem parseHttpHost_no_path (hostcap pathcap : Nat) (hnil : u.path = []) :
    parseHttpHost hostcap pathcap u.tls (u.host ++ u.portText ++ u.path)
      = if (u.host ++ u.portText).length + 1 > hostcap then none
        else if pathcap < 2 then none
        else some ⟨u.host ++ u.portText, [ch '/'], u.tls, defaultPort u.tls⟩ := by
  rw [parseHttpHost]
  simp only [u.authority_cut.1, u.authority_cut.2, if_pos hnil]

end UrlParts

/-- **URLs are taken apart as they were put together exactly where a path follows, or neither a port nor a
    path does** and there is room for `/`: without a path, the port is left in the host name. -/
theorem parseHttpUrl_roundTrip_iff (u : UrlParts) {hostcap pathcap : Nat} (hhost : u.host.length < hostcap)
    (hpath : u.path.length < pathcap) :
    parseHttpUrl u.text hostcap pathcap = some u.meaning
      ↔ u.path ≠ [] ∨ u.port = none ∧ 2 ≤ pathcap := by
  rw [UrlParts.text, parseHttpUrl_scheme]
  by_cases hnil : u.path = []
  · rw [u.parseHttpHost_no_path hostcap pathcap hnil]
    constructor
    · intro h
      right
      split at h
      · cases h
      split at h
      · cases h
      next hcap =>
      have hsame : u.host ++ u.portText = u.host := congrArg HttpUrl.host (Option.some.inj h)
      have htext : u.portText = [] := List.append_right_eq_self.mp hsame
      refine ⟨?_, by omega⟩
      cases hport : u.port with
      | none => rfl
      | some n =>
          rw [UrlParts.portText, hport] at htext
          cases htext
    · rintro (h | ⟨hport, hcap⟩)
      · exact absurd hnil h
      have htext : u.portText = [] := by rw [UrlParts.portText, hport]
      have hfits : ¬ u.host.length + 1 > hostcap := by omega
      rw [htext, List.append_nil, if_neg hfits, if_neg (by omega)]
      simp only [UrlParts.meaning, hport, Option.map_none, Option.getD_none, if_pos hnil]
  · rw [u.parseHttpHost_path hhost hpath hnil]
    exact ⟨fun _ => Or.inl hnil, fun _ => rfl⟩

/-- `http://h:8080`. -/
def portUrl : UrlParts where
  tls := false
  host := ascii "h"
  host_nonempty := by decide +kernel
  host_plain := by decide +kernel
  port := some ⟨ascii "8080", by decide +kernel, by decide +kernel⟩
  port_range := by
    intro n hn
    obtain rfl := Option.some.inj hn
    decide +kernel
  path := []
  path_absolute := Or.inl rfl

theorem parseHttpUrl_roundTrip_iff_port :
    ¬ (portUrl.path ≠ [] ∨ portUrl.port = none ∧ 2 ≤ 4096)
      ∧ parseHttpUrl portUrl.text 512 4096 ≠ some portUrl.meaning := by
  have hport : ¬ (portUrl.path ≠ [] ∨ portUrl.port = none ∧ 2 ≤ 4096) := by
    rintro (h | ⟨h, _⟩)
    · exact h rfl
    · cases h
  refine ⟨hport, ?_⟩
  intro h
  exact hport ((parseHttpUrl_roundTrip_iff portUrl (by decide) (by decide)).mp h)

/-- The port of `http://h:8080` goes into the host name, and the connection to port 80. -/
theorem parseHttpUrl_keeps_port :
    portUrl.text = ascii "http://h:8080"
      ∧ parseHttpUrl portUrl.text 512 4096 = some ⟨ascii "h:8080", ascii "/", false, 80⟩
      ∧ ¬ ∀ (u : UrlParts), u.host.length < 512 → u.path.length < 4096 →
        parseHttpUrl u.text 512 4096 = some u.meaning := by
  have hparsed : parseHttpUrl portUrl.text 512 4096 = some ⟨ascii "h:8080", ascii "/", false, 80⟩ := by
    decide +kernel
  refine ⟨by decide, hparsed, ?_⟩
  intro h
  have hmeant := h portUrl (by decide) (by decide)
  rw [hparsed] at hmeant
  exact absurd (congrArg HttpUrl.port (Option.some.inj hmeant)) (by decide +kernel)

/-! ## Requests -/

/-- What stands behind the scheme. -/
def behindScheme (url : Bytes) : Bytes := if ascii "https://" <+: url then url.drop 8 else url.drop 7

/-- The part of a URL that is asked for: all from the first `/` behind the scheme on. -/
def urlTarget (url : Bytes) : Bytes := (behindScheme url).dropWhile (· != ch '/')

/-- The part of a URL that is taken for the host name. -/
def urlHost (url : Bytes) : Bytes :=
  let authority := (behindScheme url).takeWhile (· != ch '/')
  if urlTarget url = [] then authority else authority.takeWhile (· != ch ':')

/-- Nothing in a URL breaks a line of the request, or its first line into more words. -/
def PlainUrl (url : Bytes) : Prop :=
  (∀ c ∈ urlTarget url, c ≠ ch ' ' ∧ c ≠ ch '\r' ∧ c ≠ ch '\n') ∧ ∀ c ∈ urlHost url, c ≠ ch '\r' ∧ c ≠ ch '\n'

instance (url : Bytes) : Decidable (PlainUrl url) := inferInstanceAs (Decidable (_ ∧ _))

/-- The lines of a request: the request line, the four header lines and the empty line. -/
def requestLines (accept target host : Bytes) : List Bytes :=
  [ascii "GET " ++ target ++ ascii " HTTP/1.1", ascii "Host: " ++ host, ascii "Connection: close",
    ascii "User-Agent: libupdate/1.0", ascii "Accept: " ++ accept, []]

/-- Exactly one request: its lines, with a target that is one word and a host name within its line. -/
def IsRequest (accept req : Bytes) : Prop :=
  ∃ target host, (∀ c ∈ target, c ≠ ch ' ' ∧ c ≠ ch '\r' ∧ c ≠ ch '\n')
    ∧ (∀ c ∈ host, c ≠ ch '\r' ∧ c ≠ ch '\n') ∧ req = linesText (requestLines accept target host)

theorem fetchRequest_lines (u : HttpUrl) :
    fetchRequest u = linesText (requestLines (ascii "application/json") u.path u.host) := by
  simp [fetchRequest, linesText, requestLines, ascii, crlf]

theorem downloadRequest_lines (u : HttpUrl) :
    downloadRequest u = linesText (requestLines (ascii "*/*") u.path u.host) := by
  simp [downloadRequest, linesText, requestLines, ascii, crlf]

/-- What is parsed are these parts of the URL. -/
theorem parseHttpUrl_parts {url : Bytes} {hostcap pathcap : Nat} {u : HttpUrl}
    (h : parseHttpUrl url hostcap pathcap = some u) :
    u.host = urlHost url ∧ u.path = if urlTarget url = [] then [ch '/'] else urlTarget url := by
  have hparts : ∀ tls p, p = behindScheme url → parseHttpHost hostcap pathcap tls p = some u →
      u.host = urlHost url ∧ u.path = if urlTarget url = [] then [ch '/'] else urlTarget url := by
    rintro tls p rfl hu
    unfold parseHttpHost at hu
    unfold urlHost
    have htarget : (behindScheme url).dropWhile (· != ch '/') = urlTarget url := rfl
    simp only [htarget] at hu
    by_cases hnil : urlTarget url = []
    · rw [if_pos hnil] at hu
      rw [if_pos hnil, if_pos hnil]
      split at hu
      · cases hu
      split at hu
      · cases hu
      cases hu
      exact ⟨rfl, rfl⟩
    · rw [if_neg hnil] at hu
      rw [if_neg hnil, if_neg hnil]
      split at hu
      · cases hu
      split at hu
      · cases hu
      split at hu
      · cases hu
        exact ⟨rfl, rfl⟩
      next hshort =>
      cases hu
      -- without a colon the host is the whole authority
      refine ⟨?_, rfl⟩
      have hle := (List.takeWhile_prefix (p := (· != ch ':')) (l := (behindScheme url).takeWhile (· != ch '/')))
      exact (hle.eq_of_length_le (by omega)).symm
  unfold parseHttpUrl at h
  split at h
  · next htls => exact hparts true _ (by rw [behindScheme, if_pos htls]) h
  · next htls =>
    split at h
    · exact hparts false _ (by rw [behindScheme, if_neg htls]) h
    · cases h

/-- How often a byte stands in the lines of a request. -/
theorem count_requestLines (c : UInt8) (accept target host : Bytes) :
    (linesText (requestLines accept target host)).count c
      = (linesText (requestLines accept [] [])).count c + target.count c + host.count c := by
  simp only [linesText, requestLines, List.flatMap_cons, List.flatMap_nil, List.count_append, List.append_nil,
    List.count_nil]
  omega

/-- Texts that go on with a CR behind lines are equal line by line. -/
theorem eq_of_append_cr {x y v w : Bytes} (hx : ch '\r' ∉ x) (hy : ch '\r' ∉ y)
    (h : x ++ ch '\r' :: v = y ++ ch '\r' :: w) : x = y := by
  have hline : ∀ {z : Bytes} (t : Bytes), ch '\r' ∉ z → (z ++ ch '\r' :: t).takeWhile (· != ch '\r') = z := by
    intro z t hz
    have hall : ∀ c ∈ z, (c != ch '\r') = true := by
      intro c hc
      rw [bne_iff_ne]
      rintro rfl
      exact hz hc
    rw [List.takeWhile_append_of_pos hall, List.takeWhile_cons_of_neg (by decide), List.append_nil]
  rw [← hline v hx, ← hline w hy, h]

/-- **Lines are one request exactly where target and host are plain**: a line break in them makes more lines
    than a request has, and a space more words than its first line has. -/
theorem isRequest_lines_iff {accept target host : Bytes} :
    IsRequest accept (linesText (requestLines accept target host))
      ↔ (∀ c ∈ target, c ≠ ch ' ' ∧ c ≠ ch '\r' ∧ c ≠ ch '\n') ∧ ∀ c ∈ host, c ≠ ch '\r' ∧ c ≠ ch '\n' := by
  constructor
  · rintro ⟨target', host', htarget', hhost', heq⟩
    -- the line breaks of a request are those between its lines
    have hnone : ∀ c, c ∉ target' → c ∉ host' → c ∉ target ∧ c ∉ host := by
      intro c ht hh
      have hcount := congrArg (List.count c) heq
      rw [count_requestLines, count_requestLines c accept target', List.count_eq_zero.mpr ht,
        List.count_eq_zero.mpr hh] at hcount
      exact ⟨List.count_eq_zero.mp (by omega), List.count_eq_zero.mp (by omega)⟩
    obtain ⟨htr, hhr⟩ := hnone (ch '\r') (fun h => (htarget' _ h).2.1 rfl) (fun h => (hhost' _ h).1 rfl)
    obtain ⟨_, hhn⟩ := hnone (ch '\n') (fun h => (htarget' _ h).2.2 rfl) (fun h => (hhost' _ h).2 rfl)
    have hline : ∀ {t : Bytes}, ch '\r' ∉ t → ch '\r' ∉ ascii "GET " ++ t ++ ascii " HTTP/1.1" := by
      intro t ht
      simp only [List.mem_append, not_or]
      exact ⟨⟨by decide, ht⟩, by decide⟩
    have hfirst : ∀ t h, ∃ rest, linesText (requestLines accept t h)
        = ascii "GET " ++ t ++ ascii " HTTP/1.1" ++ ch '\r' :: rest := by
      intro t h
      refine ⟨ch '\n' :: linesText (requestLines accept t h).tail, ?_⟩
      show ascii "GET " ++ t ++ ascii " HTTP/1.1" ++ crlf ++ linesText (requestLines accept t h).tail = _
      rw [List.append_assoc]
      rfl
    obtain ⟨r, hr⟩ := hfirst target host
    obtain ⟨r', hr'⟩ := hfirst target' host'
    rw [hr, hr'] at heq
    have hsame := eq_of_append_cr (hline htr) (hline fun h => (htarget' _ h).2.1 rfl) heq
    obtain rfl : target = target' := List.append_cancel_left (List.append_cancel_right hsame)
    refine ⟨htarget', ?_⟩
    intro c hc
    refine ⟨?_, ?_⟩
    · rintro rfl
      exact hhr hc
    · rintro rfl
      exact hhn hc
  · rintro ⟨htarget, hhost⟩
    exact ⟨target, host, htarget, hhost, rfl⟩

/-- The text of a path is plain where the target is. -/
theorem path_plain_iff {url path : Bytes} (hpath : path = if urlTarget url = [] then [ch '/'] else urlTarget url) :
    (∀ c ∈ path, c ≠ ch ' ' ∧ c ≠ ch '\r' ∧ c ≠ ch '\n')
      ↔ ∀ c ∈ urlTarget url, c ≠ ch ' ' ∧ c ≠ ch '\r' ∧ c ≠ ch '\n' := by
  by_cases hnil : urlTarget url = []
  · rw [hpath, if_pos hnil, hnil]
    exact ⟨fun _ c hc => absurd hc List.not_mem_nil, fun _ => by decide +kernel⟩
  · rw [hpath, if_neg hnil]

/-- **What is sent for a URL is one request exactly where the URL is plain.** -/
theorem requests_iff (url : Bytes) (u : HttpUrl) (hurl : parseHttpUrl url 512 4096 = some u) :
    (∀ req, snprintf 8192 (fetchRequest u) = some req → (IsRequest (ascii "application/json") req ↔ PlainUrl url))
      ∧ ∀ req, snprintf 8192 (downloadRequest u) = some req → (IsRequest (ascii "*/*") req ↔ PlainUrl url) := by
  obtain ⟨hhost, hpath⟩ := parseHttpUrl_parts hurl
  have hiff : ∀ accept, IsRequest accept (linesText (requestLines accept u.path u.host)) ↔ PlainUrl url := by
    intro accept
    rw [isRequest_lines_iff, path_plain_iff hpath, hhost, PlainUrl]
  refine ⟨?_, ?_⟩
  · intro req hreq
    rw [(snprintf_eq_some.mp hreq).2, fetchRequest_lines]
    exact hiff _
  · intro req hreq
    rw [(snprintf_eq_some.mp hreq).2, downloadRequest_lines]
    exact hiff _

theorem requests_iff_plain :
    parseHttpUrl (ascii "http://h/a") 512 4096 = some ⟨ascii "h", ascii "/a", false, 80⟩
      ∧ (∀ req, snprintf 8192 (fetchRequest ⟨ascii "h", ascii "/a", false, 80⟩) = some req →
        (IsRequest (ascii "application/json") req ↔ PlainUrl (ascii "http://h/a"))) := by
  have hurl : parseHttpUrl (ascii "http://h/a") 512 4096 = some ⟨ascii "h", ascii "/a", false, 80⟩ := by
    decide +kernel
  exact ⟨hurl, (requests_iff _ _ hurl).1⟩

/-- A manifest whose `download_url` breaks the line. -/
def breakingManifest : Bytes := ascii "\x7b\"download_url\":\"http://h/a\\r\\nX: b\"\x7d"

/-- A line break that a manifest writes as an escape goes into the request. -/
theorem requests_broken :
    jsonMiniExtractString breakingManifest (ascii "download_url") 512 = some (ascii "http://h/a\r\nX: b")
      ∧ ¬ ∀ url u, parseHttpUrl url 512 4096 = some u →
        (∀ req, snprintf 8192 (fetchRequest u) = some req → IsRequest (ascii "application/json") req)
          ∧ ∀ req, snprintf 8192 (downloadRequest u) = some req → IsRequest (ascii "*/*") req := by
  refine ⟨by decide +kernel, ?_⟩
  intro h
  have hurl : parseHttpUrl (ascii "http://h/a\r\nX: b") 512 4096
      = some ⟨ascii "h", ascii "/a\r\nX: b", false, 80⟩ := by decide +kernel
  obtain ⟨_, hdownload⟩ := h _ _ hurl
  have hreq := hdownload _ (snprintf_eq_some.mpr ⟨by decide +kernel, rfl⟩)
  rw [downloadRequest_lines, isRequest_lines_iff] at hreq
  exact absurd hreq.1 (by decide +kernel)

end LibUpdate
