import LibUpdate.Download.Atomicity
import LibUpdate.Http.Fields
import LibUpdate.Http.Twins

/-!
# `Download.Response` — complete responses, and responses that are cut short

A response is a header section and what its framing makes of the bytes behind it: chunks, so many bytes, or
everything until the connection is closed. The readers take the framing that the header section marks
(`Framing.Marked`), where its fields fit their buffers. Where nothing behind the header section passes for a framing field
that it lacks (`Decided`), both transports are a function of the bytes that arrive and of how they end. So a
complete response is delivered whole, and one whose framing marks its end is not delivered when it is cut
short, whether the header section, a size line or the data is cut.
-/

namespace LibUpdate

/-! ## Framings -/

/-- How a response marks the end of its body. -/
inductive Framing where
  | chunked
  | counted (n : Nat)
  | untilClose
  deriving DecidableEq, Repr

/-- The framing that the readers take from the headers: `Transfer-Encoding` goes before `Content-Length`, as in
    `update_http_fetch`. -/
def framingOf (headers : Bytes) : Framing :=
  if isChunkedEncoding headers then .chunked
  else
    match parseContentLength headers with
    | some n => .counted n
    | none => .untilClose

namespace Framing

variable {σ : Type}

/-- The body that the reader for a framing writes to a file. -/
def read (src : Source σ) (f : Framing) (s : σ) : Option Bytes :=
  match f with
  | .chunked => (readBodyChunked src fwriteAll [] s).map Prod.fst
  | .counted n => (readBodyKnown src fwriteAll n [] s).map Prod.fst
  | .untilClose => (readBodyUntilClose src fwriteAll [] s).map Prod.fst

/-- What arrives is a body in this framing, and more where the framing marks the end of the body. -/
inductive Complete : Framing → Bytes → Bytes → Prop where
  | chunked (b : ChunkedBody) (more : Bytes) : Complete .chunked (b.wire ++ (crlf ++ more)) b.body
  | counted (body more : Bytes) : Complete (.counted body.length) (body ++ more) body
  | untilClose (body : Bytes) : Complete .untilClose body body

/-- What arrives is less than a body in this framing. A body until the connection is closed is never cut short, for
    nothing marks its end. -/
inductive CutShort : Framing → Bytes → Prop where
  | chunked {b : ChunkedBody} {s missing : Bytes} :
      s ++ missing = b.wire ++ crlf → missing ≠ [] → CutShort .chunked s
  | counted {n : Nat} {s : Bytes} : s.length < n → CutShort (.counted n) s

/-! ## What the readers make of a stream -/

/-- The readers do not see how the body arrives. -/
theorem read_stream (f : Framing) (s : IoSrc) : f.read ioSource s = f.read Stream.source s.stream := by
  cases f with
  | chunked => exact map_fst_carry (readBodyChunked_map ioMap fwriteAll [] s)
  | counted n => exact map_fst_carry (readBodyKnown_map ioMap fwriteAll n [] s)
  | untilClose => exact map_fst_carry (readBodyUntilClose_map ioMap fwriteAll [] s)

/-- A known length is read where so much arrives. -/
theorem read_counted (n : Nat) (s : Stream) :
    (counted n).read Stream.source s = if n ≤ s.bytes.length then some (s.bytes.take n) else none := by
  by_cases hle : n ≤ s.bytes.length
  · obtain ⟨bytes, failing⟩ := s
    have hlen : (bytes.take n).length = n - 0 := by rw [List.length_take_of_le hle, Nat.sub_zero]
    have hroom : id ([] : Bytes) ++ bytes.take n <+: bytes.take n := List.prefix_refl _
    obtain ⟨out, hrun, hout⟩ := readBlocks_takes (fwrite_takes (bytes.take n)) (bytes.drop n) failing
      (Nat.zero_le n) hlen hroom
    rw [List.take_append_drop] at hrun
    have hout : out = bytes.take n := hout
    rw [if_pos hle, read, readBodyKnown, hrun, ← hout]
    rfl
  · rw [if_neg hle, read]
    cases hrun : readBodyKnown Stream.source fwriteAll n [] s with
    | none => rfl
    | some x =>
        obtain ⟨body, _, hlen, hbytes⟩ := readBlocks_exact (Nat.zero_le n) hrun
        rw [hbytes, List.length_append] at hle
        omega

/-- Everything is read, until the end of the stream or a failure. -/
theorem readBodyUntilClose_stream (out : Bytes) (s : Stream) :
    readBodyUntilClose Stream.source fwriteAll out s
      = if s.failing then none else some (out ++ s.bytes, ⟨[], false⟩) := by
  induction hn : s.bytes.length using Nat.strongRecOn generalizing out s with
  | ind n ih =>
      rw [readBodyUntilClose_pass]
      by_cases hle : 8192 ≤ s.bytes.length
      · have hread : Stream.source.read s 8192
            = some (s.bytes.take 8192, ⟨s.bytes.drop 8192, s.failing⟩) := Stream.read_of_le hle
        have hne : s.bytes.take 8192 ≠ [] := by
          rw [← List.length_pos_iff, List.length_take_of_le hle]
          decide
        rw [hread, Option.bind_some, if_neg hne, fwriteAll_eq, Option.bind_some]
        rw [ih (s.bytes.drop 8192).length (by rw [List.length_drop]; omega) _ _ rfl, List.append_assoc,
          List.take_append_drop]
      · have hread : Stream.source.read s 8192
            = if s.failing then none else some (s.bytes, ⟨[], s.failing⟩) := if_neg hle
        rw [hread]
        by_cases hfail : s.failing = true
        · rw [if_pos hfail, if_pos hfail]
          rfl
        · have hfalse : s.failing = false := by simpa using hfail
          rw [if_neg hfail, if_neg hfail, Option.bind_some, hfalse]
          by_cases hnil : s.bytes = []
          · rw [if_pos hnil, hnil, List.append_nil]
          · have hless : ([] : Bytes).length < n := by
              rw [← hn]
              exact List.length_pos_iff.mpr hnil
            rw [if_neg hnil, fwriteAll_eq, Option.bind_some, ih _ hless _ _ rfl]
            simp

/-- **A complete body is read as it is.** -/
theorem Complete.read {f : Framing} {s body : Bytes} (h : Complete f s body) {failing : Bool}
    (hend : f = .untilClose → failing = false) : f.read Stream.source ⟨s, failing⟩ = some body := by
  cases h with
  | chunked b more =>
      obtain ⟨out, hrun, hout⟩ := readBodyChunked_of_walk (b.toWalk crlf isLine_crlf) (fwrite_takes b.body) []
        (by rw [b.body_toWalk]; exact List.prefix_refl _) more failing
      rw [b.wire_toWalk, b.body_toWalk] at *
      have hout : out = b.body := hout
      rw [Framing.read, ← hout]
      exact congrArg (Option.map Prod.fst) hrun
  | counted more =>
      rw [read_counted, if_pos (by rw [List.length_append]; omega), List.take_left]
  | untilClose =>
      rw [Framing.read, readBodyUntilClose_stream, hend rfl]
      rfl

/-- **A body that is cut short is not read.** -/
theorem CutShort.read {f : Framing} {s : Bytes} (h : CutShort f s) (failing : Bool) :
    f.read Stream.source ⟨s, failing⟩ = none := by
  cases h with
  | @chunked b s missing hsplit hmissing =>
      rw [Framing.read]
      cases hrun : readBodyChunked Stream.source fwriteAll [] ⟨s, failing⟩ with
      | none => rfl
      | some x =>
          -- the walk over what arrived would be the walk over the whole body, with nothing left to come
          obtain ⟨out, s'⟩ := x
          have happ : ∀ {out bs out' : Bytes}, fwriteAll out bs = some out' → id out' = id out ++ bs :=
            fwrite_appends _
          obtain ⟨w, hwire, _, _⟩ := readBodyChunked_walk happ hrun
          have hwire : s = w.wire ++ (w.trailer ++ s'.bytes) := hwire
          have hsame : w.wire ++ (w.trailer ++ (s'.bytes ++ missing))
              = (b.toWalk crlf isLine_crlf).wire ++ ((b.toWalk crlf isLine_crlf).trailer ++ []) := by
            rw [b.wire_toWalk, List.append_nil]
            refine Eq.trans ?_ hsplit
            rw [hwire]
            simp only [List.append_assoc]
          exact absurd (List.append_eq_nil_iff.mp (Walk.unique hsame).2).2 hmissing
  | counted hless =>
      rw [read_counted, if_neg (Nat.not_le.mpr hless)]

end Framing

/-! ## What the headers decide -/

/-- The lines of the front of a text are lines of the text. -/
theorem headerLines_front {p q : Bytes} (h : p <+: q) : headerLines p <+: headerLines q := by
  obtain ⟨t, rfl⟩ := h
  fun_induction headerLines p with
  | case1 => exact List.nil_prefix
  | case2 => exact List.nil_prefix
  | case3 p hne e he ih =>
      obtain ⟨x, hx, ⟨y, rfl⟩, _⟩ := strstr_eq_some he
      have hdrop : (crlf ++ y ++ t).drop 2 = (crlf ++ y).drop 2 ++ t := rfl
      have hmore : strstr crlf (p ++ t) = some (crlf ++ y ++ t) := strstr_append he t
      have hne' : p ++ t ≠ [] := by simp [hne]
      rw [headerLines.eq_1 (p ++ t), if_neg hne']
      split
      · next hnone => rw [hmore] at hnone; cases hnone
      · next e' he' =>
        rw [hmore] at he'
        cases he'
        have hline : (p ++ t).take ((p ++ t).length - (crlf ++ y ++ t).length)
            = p.take (p.length - (crlf ++ y).length) := by
          rw [hx, take_before x (crlf ++ y), List.append_assoc x, take_before x (crlf ++ y ++ t)]
        rw [hline, hdrop]
        exact List.cons_prefix_cons.mpr ⟨rfl, ih⟩

theorem Names.mono {name p q : Bytes} (h : Names name p) (hpq : p <+: q) : Names name q := by
  obtain ⟨l, hl, hname⟩ := h
  exact ⟨l, (headerLines_front hpq).subset hl, hname⟩

/-- A field that no line names has no value. -/
theorem headerValueLine_absent {name p : Bytes} (h : ¬ Names name p) (outcap : Nat) :
    headerValueLine name outcap p = none := by
  fun_induction headerValueLine name outcap p with
  | case1 => rfl
  | case2 => rfl
  | case3 p hne e he line hname =>
      refine absurd ⟨line, ?_, hname⟩ h
      rw [headerLines, if_neg hne]
      split
      · next hnone => rw [he] at hnone; cases hnone
      · next e' he' =>
        rw [he] at he'
        cases he'
        exact List.mem_cons_self
  | case4 p hne e he line hname ih =>
      refine ih fun ⟨l, hl, hnamed⟩ => h ⟨l, ?_, hnamed⟩
      rw [headerLines, if_neg hne]
      split
      · next hnone => rw [he] at hnone; cases hnone
      · next e' he' =>
        rw [he] at he'
        cases he'
        exact List.mem_cons_of_mem _ hl

/-- The header section of a response that the transports accept. -/
structure AcceptedHead (h : Bytes) : Prop where
  head : IsHeaderSection h
  no_nul : (0 : UInt8) ∉ h
  short : h.length ≤ 254 * 1024
  status : parseStatus200 h = true

/-- Nothing behind the header section passes for a framing field that it lacks. -/
def Decided (h s : Bytes) : Prop :=
  (Names transferEncoding h ∨ ¬ Names transferEncoding s)
    ∧ (isChunkedEncoding h = true ∨ Names contentLength h ∨ ¬ Names contentLength s)

instance (h s : Bytes) : Decidable (Decided h s) := inferInstanceAs (Decidable (_ ∧ _))

variable {h s : Bytes}

theorem isChunkedEncoding_absent {p : Bytes} (hp : ¬ Names transferEncoding p) : isChunkedEncoding p = false := by
  rw [isChunkedEncoding, headerValueLine_absent hp]

theorem parseContentLength_absent {p : Bytes} (hp : ¬ Names contentLength p) : parseContentLength p = none := by
  rw [parseContentLength, headerValueLine_absent hp]
  rfl

/-- **The header section decides the framing**, whatever of the body came in with it. -/
theorem framingOf_decided (hh : IsHeaderSection h) (hdec : Decided h s) {b : Bytes} (hb : b <+: s) :
    framingOf (h ++ b) = framingOf h := by
  have hchunked : isChunkedEncoding (h ++ b) = isChunkedEncoding h := by
    by_cases hte : Names transferEncoding h
    · exact isChunkedEncoding_named hh hte b
    · have hs := hdec.1.resolve_left hte
      rw [isChunkedEncoding_unnamed hh hte, isChunkedEncoding_absent hte,
        isChunkedEncoding_absent fun hnamed => hs (hnamed.mono hb)]
  rw [framingOf, framingOf, hchunked]
  by_cases hyes : isChunkedEncoding h = true
  · rw [if_pos hyes, if_pos hyes]
  · have hlength : parseContentLength (h ++ b) = parseContentLength h := by
      by_cases hcl : Names contentLength h
      · exact parseContentLength_named hh hcl b
      · have hs := (hdec.2.resolve_left hyes).resolve_left hcl
        rw [parseContentLength_unnamed hh hcl, parseContentLength_absent hcl,
          parseContentLength_absent fun hnamed => hs (hnamed.mono hb)]
    rw [hlength]

/-- The framing that a header section marks with fields that fit the buffers of the readers: chunks, where its first
    `Transfer-Encoding` ends with `chunked`; so many bytes, where it has no `Transfer-Encoding` and its first
    `Content-Length` is a numeral that fits 64 bits; everything until the connection is closed, where it has neither. -/
inductive Framing.Marked (h : Bytes) : Framing → Prop where
  | chunked {value : Bytes} (field : FirstField h (ascii "Transfer-Encoding") value) (ends : EndsChunked value)
      (fits : value.length < 128) : Marked h .chunked
  | counted (d : Decimal) {blanks : Bytes} (other : NoField h (ascii "Transfer-Encoding"))
      (field : FirstField h (ascii "Content-Length") (d.digits ++ blanks)) (blank : ∀ c ∈ blanks, isBlank c = true)
      (size : d.value < UInt64.size) (fits : (d.digits ++ blanks).length < 64) : Marked h (.counted d.value)
  | untilClose (other : NoField h (ascii "Transfer-Encoding")) (bare : NoField h (ascii "Content-Length")) :
      Marked h .untilClose

/-- **The readers take the framing that the header section marks.** -/
theorem framingOf_marked (hh : IsHeaderSection h) {f : Framing} (hf : f.Marked h) : framingOf h = f := by
  have hplain (hother : NoField h (ascii "Transfer-Encoding")) : ¬ isChunkedEncoding h = true := by
    rw [isChunkedEncoding_absent hother.not_names]
    exact Bool.false_ne_true
  cases hf with
  | chunked hfield hends hfits => rw [framingOf, if_pos (isChunkedEncoding_of_field hh hfield hends hfits)]
  | counted d hother hfield hblank hsize hfits =>
      rw [framingOf, if_neg (hplain hother), parseContentLength_of_field hh d hfield hblank hsize hfits]
  | untilClose hother hbare =>
      rw [framingOf, if_neg (hplain hother), parseContentLength_absent hbare.not_names]

/-! ## What the transports make of a connection -/

theorem readFramedFile_framing (headers : Bytes) (src : IoSrc) :
    readFramedFile (fun _ _ => false) headers src = (framingOf headers).read ioSource src := by
  rw [readFramedFile, framingOf]
  by_cases hchunked : isChunkedEncoding headers = true
  · rw [if_pos hchunked, if_pos hchunked]
    rfl
  · rw [if_neg hchunked, if_neg hchunked]
    cases parseContentLength headers with
    | none => rfl
    | some n => rfl

/-- What memory takes of a body is the body that the file takes, within the limit. -/
theorem map_d_of_twins {σ : Type} {r : Option (MemBuf × σ)} {q : Option (Bytes × σ)} (h : inMemory r = within q) :
    (r.map Prod.fst).map MemBuf.d = (q.map Prod.fst).filter fun body => body.length ≤ updateHttpFetchMax := by
  have hfst := congrArg (Option.map Prod.fst) h
  rw [inMemory, within, Option.map_map] at hfst
  rw [Option.map_map]
  refine hfst.trans ?_
  cases q with
  | none => rfl
  | some x =>
      by_cases hle : x.1.length ≤ updateHttpFetchMax
      · simp [Option.filter_some, hle]
      · simp [Option.filter_some, hle]

theorem readFramed_framing (headers : Bytes) (src : IoSrc) :
    (readFramed memory headers src).map MemBuf.d
      = ((framingOf headers).read ioSource src).filter fun body => body.length ≤ updateHttpFetchMax := by
  have hempty : MemBuf.empty.d.length ≤ updateHttpFetchMax := Nat.zero_le _
  rw [readFramed, framingOf]
  by_cases hchunked : isChunkedEncoding headers = true
  · rw [if_pos hchunked, if_pos hchunked]
    exact map_d_of_twins (readBodyChunked_twins hempty)
  · rw [if_neg hchunked, if_neg hchunked]
    cases parseContentLength headers with
    | none => exact map_d_of_twins (readBodyUntilClose_twins hempty)
    | some n => exact map_d_of_twins (readBodyKnown_twins n hempty)

theorem fetchResponse_head (alloc : Nat → Bool) (c : Conn) :
    fetchResponse alloc c = (responseHead alloc c).bind fun x => readFramed alloc x.1 x.2 := by
  rw [fetchResponse, responseHead]
  cases readHttpHeaders alloc .empty c with
  | none => rfl
  | some x =>
      dsimp only
      by_cases hstatus : parseStatus200 (cstr x.1.d) = true
      · rw [if_pos hstatus, if_pos hstatus]
        cases strstr (crlf ++ crlf) (cstr x.1.d) with
        | none => rfl
        | some sep => rfl
      · rw [if_neg hstatus, if_neg hstatus]
        rfl

/-- **The two transports agree**: what is fetched into memory is what is downloaded into a file, where it is
    within the limit of the memory. -/
theorem fetchResponse_delivered (c : Conn) :
    (fetchResponse memory c).map MemBuf.d = (delivered c).filter fun body => body.length ≤ updateHttpFetchMax := by
  rw [fetchResponse_head, delivered]
  cases responseHead memory c with
  | none => rfl
  | some x =>
      rw [Option.bind_some, Option.bind_some, readFramed_framing, readFramedFile_framing]

/-- **What is delivered**, as a function of what arrives behind the header section and of how it ends. -/
theorem delivered_decided (hhead : AcceptedHead h) (hdec : Decided h s) {c : Conn} (hc : c.bytes = h ++ s) :
    delivered c = (framingOf h).read Stream.source ⟨s, c.failing⟩ := by
  obtain ⟨hh, hnul, hlen, hstatus⟩ := hhead
  have hpos : 0 < h.length := by
    obtain ⟨x, hx⟩ := hh.ends
    rw [hx]
    simp [crlf]
  have hstart : MemBuf.empty.d ++ c.bytes = h ++ s := by rw [← hc]; rfl
  obtain ⟨buf, c', b, hrun, hd, hrest, _, hfail⟩ := readHttpHeaders_complete hh hnul hlen hstart hpos
  have hb : cstr b <+: s := (List.takeWhile_prefix _).trans ⟨c'.bytes, hrest⟩
  have hresponse : responseHead memory c = some (h ++ cstr b, ⟨b, c'⟩) := by
    have hsep := headers_complete hh hnul b
    obtain ⟨x, hx⟩ := hh.ends
    have hbody : (cstr (h ++ b)).length - (crlf ++ crlf ++ cstr b).length + 4 = h.length := by
      rw [cstr_append hnul, hx]
      simp [crlf]
    have hok : parseStatus200 (cstr (h ++ b)) = true := by rw [cstr_append hnul, parseStatus200_append hh, hstatus]
    rw [responseHead, hrun]
    dsimp only
    rw [hd, if_pos hok, hsep]
    dsimp only
    rw [hbody, List.drop_left, cstr_append hnul]
  rw [delivered, hresponse, Option.bind_some, readFramedFile_framing, framingOf_decided hh hdec hb, Framing.read_stream,
    ← hrest, ← hfail]
  rfl

/-! ## Less memory -/

theorem memAppend_memory {alloc : Nat → Bool} {buf bs buf'} (h : memAppend alloc buf bs = some buf') :
    memAppend memory buf bs = some buf' := by
  obtain ⟨hgrow, hle⟩ := memAppend_eq_some.mp h
  exact memAppend_eq_some.mpr ⟨appendGrow_memory hgrow, hle⟩

/-- What is fetched although memory is short is fetched where it is not. -/
theorem fetchResponse_memory {alloc : Nat → Bool} {c : Conn} {buf : MemBuf} (h : fetchResponse alloc c = some buf) :
    fetchResponse memory c = some buf := by
  have hmap : ∀ {r r' : Option (MemBuf × IoSrc)}, (∀ x, r = some x → r' = some x) → r.map Prod.fst = some buf →
      r'.map Prod.fst = some buf := by
    intro r r' hr hbuf
    obtain ⟨x, hx, rfl⟩ := Option.map_eq_some_iff.mp hbuf
    rw [hr x hx]
    rfl
  rw [fetchResponse_head] at h ⊢
  obtain ⟨x, hhead, hbody⟩ := Option.bind_eq_some_iff.mp h
  rw [Download.responseHead_memory hhead, Option.bind_some]
  unfold readFramed at hbody ⊢
  split at hbody
  · next hchunked =>
    rw [if_pos hchunked]
    exact hmap (fun x hx => readBodyChunked_more memAppend_memory hx) hbody
  next hchunked =>
  rw [if_neg hchunked]
  split at hbody
  · exact hmap (fun x hx => readBlocks_more memAppend_memory hx) hbody
  · exact hmap (fun x hx => readBodyUntilClose_more memAppend_memory hx) hbody

/-- What is not delivered is not fetched either. -/
theorem fetchResponse_none {c : Conn} (h : delivered c = none) (alloc : Nat → Bool) : fetchResponse alloc c = none := by
  cases hfetch : fetchResponse alloc c with
  | none => rfl
  | some buf =>
      have hboth := fetchResponse_delivered c
      rw [fetchResponse_memory hfetch, h] at hboth
      cases hboth

/-- A header section that is cut short is never found. -/
theorem readHttpHeaders_short (hh : IsHeaderSection h) (alloc : Nat → Bool) {buf : MemBuf} {c : Conn}
    (hpre : buf.d ++ c.bytes <+: h) (hlt : (buf.d ++ c.bytes).length < h.length) :
    readHttpHeaders alloc buf c = none := by
  fun_induction readHttpHeaders alloc buf c with
  | case1 => rfl
  | case2 => rfl
  | case3 => rfl
  | case4 => rfl
  | case5 buf c b bs c₁ hrecv buf₁ hgrow hle hsome =>
      have hd := appendGrow_d hgrow
      obtain ⟨hbytes, _, _⟩ := connRecv_some hrecv
      rw [hbytes, ← List.append_assoc, ← hd] at hpre hlt
      rw [List.length_append] at hlt
      exact absurd hsome (headers_incomplete hh ((List.prefix_append _ _).trans hpre) (by omega))
  | case6 buf c b bs c₁ hrecv buf₁ hgrow hle hnone ih =>
      obtain ⟨hbytes, _, _⟩ := connRecv_some hrecv
      rw [hbytes, ← List.append_assoc, ← appendGrow_d hgrow] at hpre hlt
      exact ih hpre hlt

theorem delivered_short (hh : IsHeaderSection h) {c : Conn} (hpre : c.bytes <+: h) (hne : c.bytes ≠ h) :
    delivered c = none := by
  have hlt : c.bytes.length < h.length :=
    Nat.lt_of_le_of_ne hpre.length_le fun heq => hne (hpre.eq_of_length heq)
  have hread : readHttpHeaders memory .empty c = none := readHttpHeaders_short hh memory hpre hlt
  rw [delivered, responseHead, hread]
  rfl

/-! ## Responses -/

/-- The header section of a chunked response. -/
def chunkedHead : Bytes := ascii "HTTP 200 OK\r\nTransfer-Encoding: chunked\r\n\r\n"

theorem chunkedHead_accepted : AcceptedHead chunkedHead :=
  ⟨by decide +kernel, by decide +kernel, by decide +kernel, by decide +kernel⟩

theorem chunkedHead_marked : Framing.Marked chunkedHead .chunked := by
  have hline : IsField (ascii "Transfer-Encoding") (ascii "chunked") (ascii "Transfer-Encoding: chunked") :=
    ⟨ascii "Transfer-Encoding", [ch ' '], by decide +kernel, rfl, by decide +kernel, by decide +kernel⟩
  have hfield : FirstField chunkedHead (ascii "Transfer-Encoding") (ascii "chunked") := by
    refine ⟨[ascii "HTTP 200 OK"], _, [[]], by decide +kernel, hline, fun l hl v hv => ?_⟩
    obtain rfl := List.mem_singleton.mp hl
    have hnamed : namesField transferEncoding (ascii "HTTP 200 OK") = true := namesField_iff.mpr ⟨v, hv⟩
    exact absurd hnamed (by decide +kernel)
  exact .chunked hfield ⟨[], [], by decide +kernel, by decide +kernel, by decide +kernel⟩ (by decide +kernel)

/-- A body in two chunks. -/
def hiAll : ChunkedBody where
  chunks := [⟨⟨ascii "2", [], by decide, by decide +kernel, ⟨by decide +kernel, by decide⟩, by decide⟩,
      ascii "hi", by decide, by decide, by decide⟩,
    ⟨⟨ascii "3", [], by decide, by decide +kernel, ⟨by decide +kernel, by decide⟩, by decide⟩,
      ascii "all", by decide, by decide, by decide⟩]
  last := ⟨ascii "0", [], by decide, by decide +kernel, ⟨by decide +kernel, by decide⟩, by decide⟩
  last_zero := by decide

namespace Download

/-- The connection that a run ends with is one that the environment gave it. -/
theorem conn_given (fuel : Nat) (url dest : Bytes) {s : State} {es : List Outcome} (hs : s.conn = none)
    {P : Conn → Prop} (hgives : ∀ e ∈ es, ∀ req c, e (.send req) = some c → P c) {c : Conn}
    (hc : (runOf fuel url dest es s).final.conn = some c) : P c := by
  have hstep : ∀ e ∈ es, ∀ o (t : State), (∀ c, t.conn = some c → P c) →
      ∀ c, (device.step o e t).2.conn = some c → P c := by
    intro e he o t ht c hc
    cases o with
    | send req => exact hgives e he req c hc
    | lib o => exact ht c hc
    | locked => exact ht c hc
    | connect u => exact ht c hc
    | headerMemory => exact ht c hc
    | fopen path => exact ht c hc
    | fwrites path => exact ht c hc
    | fclose path written => exact ht c hc
    | move src dst => exact ht c hc
  refine device.final_invariant (updateDownload fuel url dest) hstep ?_ c hc
  intro c hc
  rw [hs] at hc
  cases hc

/-- Two chunks, the second of which comes in two pieces. -/
def chunkedConn : Conn :=
  ⟨[⟨chunkedHead ++ ascii "2\r\nhi\r\n3\r\nal", by decide +kernel⟩,
    ⟨ascii "l\r\n0\r\n\r\n", by decide +kernel⟩], false⟩

end Download

end LibUpdate
