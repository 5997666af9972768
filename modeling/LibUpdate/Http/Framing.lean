import LibUpdate.Http.Chunked
import LibUpdate.Http.Headers

/-!
# `Http.Framing` — what the framing of a response depends on

The header section ends at the first empty line, but the search for a header line does not stop there: it
runs on over the part of the body that came in with the headers. A header section *names* a field when one
of its own lines does; where it names both fields that decide the framing, the search ends before the
body, and otherwise the answers depend on where the socket cut the stream.
-/

namespace LibUpdate

/-! ## Lines of the header section -/

/-- The lines of a text, each without its CRLF. The fields of a header section are looked for among them. -/
def headerLines (p : Bytes) : List Bytes :=
  if p = [] then []
  else
    match _h : strstr crlf p with
    | none => []
    | some lineEnd => p.take (p.length - lineEnd.length) :: headerLines (lineEnd.drop 2)
termination_by p.length
decreasing_by
  have := strstr_length _h
  simp only [List.length_drop]
  simp only [crlf, List.length_cons, List.length_nil] at this
  omega

/-- One of the lines of the header section begins with the name. -/
def Names (name h : Bytes) : Prop := ∃ l ∈ headerLines h, namesField name l = true

instance (name h : Bytes) : Decidable (Names name h) := inferInstanceAs (Decidable (∃ l ∈ _, _))

/-- The text of lines. -/
def linesText (ls : List Bytes) : Bytes := ls.flatMap (· ++ crlf)

/-- A text that ends in CRLF consists of lines. -/
theorem exists_lines (n : Nat) : ∀ h : Bytes, h.length ≤ n → (h = [] ∨ crlf <:+ h) →
    ∃ ls : List Bytes, h = linesText ls ∧ ∀ l ∈ ls, ¬ crlf <:+: l := by
  induction n with
  | zero =>
      intro h hlen _
      exact ⟨[], List.eq_nil_of_length_eq_zero (by omega), by simp⟩
  | succ n ih =>
      intro h hlen hend
      rcases hend with rfl | hend
      · exact ⟨[], rfl, by simp⟩
      cases hs : strstr crlf h with
      | none => exact absurd hend.isInfix (strstr_none_iff.mp hs)
      | some e =>
          obtain ⟨x, rfl, ⟨rest, rfl⟩, hfirst⟩ := strstr_eq_some hs
          have hx : ¬ crlf <:+: x := hfirst x (List.prefix_append _ _) (by simp [crlf])
          have hrest : rest = [] ∨ crlf <:+ rest := by
            have hsuf : rest <:+ x ++ (crlf ++ rest) :=
              (List.suffix_append crlf rest).trans (List.suffix_append x _)
            by_cases hlong : 2 ≤ rest.length
            · exact Or.inr (List.suffix_of_suffix_length_le hend hsuf hlong)
            · left
              cases rest with
              | nil => rfl
              | cons c rest =>
                  -- a single byte behind a line feed does not complete a CRLF
                  obtain rfl : rest = [] := by
                    cases rest with
                    | nil => rfl
                    | cons d rest => exact absurd (by simp) hlong
                  have htwo : [ch '\n', c] <:+ x ++ (crlf ++ [c]) := ⟨x ++ [ch '\r'], by simp [crlf]⟩
                  have heq := (List.suffix_of_suffix_length_le hend htwo (Nat.le_refl 2)).eq_of_length rfl
                  exact absurd (List.cons.inj heq).1 (by decide)
          obtain ⟨ls, rfl, hls⟩ := ih rest (by simp [crlf] at hlen; omega) hrest
          refine ⟨x :: ls, by simp [linesText], ?_⟩
          intro l hl
          rcases List.mem_cons.mp hl with rfl | hl
          · exact hx
          · exact hls l hl

/-- What stands in front of a suffix. -/
theorem take_before (x e : Bytes) : (x ++ e).take ((x ++ e).length - e.length) = x := by
  rw [List.length_append, Nat.add_sub_cancel, List.take_left]

theorem headerLines_linesText {ls : List Bytes} (hls : ∀ l ∈ ls, ¬ crlf <:+: l) :
    headerLines (linesText ls) = ls := by
  induction ls with
  | nil => rw [linesText, List.flatMap_nil, headerLines, if_pos rfl]
  | cons l ls ih =>
      have htext : linesText (l :: ls) = l ++ (crlf ++ linesText ls) := by simp [linesText]
      have hs := strstr_crlf (linesText ls) (hls l List.mem_cons_self)
      have hne : l ++ (crlf ++ linesText ls) ≠ [] := by simp [crlf]
      rw [htext, headerLines, if_neg hne]
      split
      · next hnone => rw [hs] at hnone; cases hnone
      · next e he =>
        rw [hs] at he
        cases he
        have hline := take_before l (crlf ++ linesText ls)
        have hnext : (crlf ++ linesText ls).drop 2 = linesText ls := rfl
        rw [hline, hnext, ih fun m hm => hls m (List.mem_cons_of_mem l hm)]

/-- One line of the search. -/
theorem headerValueLine_line {name l rest : Bytes} (outcap : Nat) (hl : ¬ crlf <:+: l) :
    headerValueLine name outcap (l ++ (crlf ++ rest))
      = if namesField name l then fieldValue l outcap else headerValueLine name outcap rest := by
  have hs := strstr_crlf rest hl
  have hne : l ++ (crlf ++ rest) ≠ [] := by simp [crlf]
  rw [headerValueLine, if_neg hne]
  split
  · next hnone => rw [hs] at hnone; cases hnone
  · next e he =>
    rw [hs] at he
    cases he
    have hline := take_before l (crlf ++ rest)
    have hnext : (crlf ++ rest).drop 2 = rest := rfl
    simp only [hline, hnext]

/-- **The search over the lines of a text**: it ends at the first line that names the field, and otherwise
    goes on behind the text. -/
theorem headerValueLine_lines (name : Bytes) (outcap : Nat) {ls : List Bytes} (hls : ∀ l ∈ ls, ¬ crlf <:+: l)
    (rest : Bytes) :
    (∃ l ∈ ls, namesField name l = true ∧ headerValueLine name outcap (linesText ls ++ rest) = fieldValue l outcap
        ∧ headerValueLine name outcap (linesText ls) = fieldValue l outcap)
      ∨ (∀ l ∈ ls, namesField name l = false)
        ∧ headerValueLine name outcap (linesText ls ++ rest) = headerValueLine name outcap rest := by
  induction ls with
  | nil => exact Or.inr ⟨by simp, rfl⟩
  | cons l ls ih =>
      have hl := hls l List.mem_cons_self
      have htext (r : Bytes) : linesText (l :: ls) ++ r = l ++ (crlf ++ (linesText ls ++ r)) := by simp [linesText]
      have hself := htext []
      rw [List.append_nil, List.append_nil] at hself
      rw [htext, hself, headerValueLine_line outcap hl, headerValueLine_line outcap hl]
      by_cases hname : namesField name l = true
      · rw [if_pos hname, if_pos hname]
        exact Or.inl ⟨l, List.mem_cons_self, hname, rfl, rfl⟩
      · rw [if_neg hname, if_neg hname]
        rcases ih fun m hm => hls m (List.mem_cons_of_mem l hm) with ⟨m, hm, hmname, hval, hval'⟩ | ⟨hnone, hval⟩
        · exact Or.inl ⟨m, List.mem_cons_of_mem l hm, hmname, hval, hval'⟩
        · refine Or.inr ⟨?_, hval⟩
          intro m hm
          rcases List.mem_cons.mp hm with rfl | hm
          · simpa using hname
          · exact hnone m hm

/-- The header section of a response: it ends at its first empty line. -/
def IsHeaderSection (h : Bytes) : Prop := strstr (crlf ++ crlf) h = some (crlf ++ crlf)

instance (h : Bytes) : Decidable (IsHeaderSection h) := inferInstanceAs (Decidable (_ = _))

variable {h : Bytes}

theorem IsHeaderSection.ends (hh : IsHeaderSection h) : ∃ x, h = x ++ (crlf ++ crlf) := by
  obtain ⟨x, hx, _⟩ := strstr_eq_some hh
  exact ⟨x, hx⟩

theorem IsHeaderSection.lines (hh : IsHeaderSection h) :
    ∃ ls, h = linesText ls ∧ (∀ l ∈ ls, ¬ crlf <:+: l) ∧ headerLines h = ls := by
  obtain ⟨x, hx⟩ := hh.ends
  obtain ⟨ls, hls, hno⟩ := exists_lines h.length h (Nat.le_refl _) (Or.inr ⟨x ++ crlf, by rw [hx]; simp⟩)
  refine ⟨ls, hls, hno, ?_⟩
  rw [hls, headerLines_linesText hno]

/-- **A header section that names a field decides its value.** -/
theorem headerValueLine_named (hh : IsHeaderSection h) {name : Bytes} (hname : Names name h) (outcap : Nat)
    (rest : Bytes) : headerValueLine name outcap (h ++ rest) = headerValueLine name outcap h := by
  obtain ⟨ls, rfl, hno, hlines⟩ := hh.lines
  rcases headerValueLine_lines name outcap hno rest with ⟨_, _, _, hval, hval'⟩ | ⟨hnone, _⟩
  · rw [hval, hval']
  · obtain ⟨l, hl, htrue⟩ := hname
    rw [hlines] at hl
    exact absurd htrue (by rw [hnone l hl]; decide)

/-- **Where the header section does not name a field, the body decides.** -/
theorem headerValueLine_unnamed (hh : IsHeaderSection h) {name : Bytes} (hname : ¬ Names name h) (outcap : Nat)
    (rest : Bytes) : headerValueLine name outcap (h ++ rest) = headerValueLine name outcap rest := by
  obtain ⟨ls, rfl, hno, hlines⟩ := hh.lines
  rcases headerValueLine_lines name outcap hno rest with ⟨l, hl, htrue, _⟩ | ⟨_, hval⟩
  · exact absurd ⟨l, by rw [hlines]; exact hl, htrue⟩ hname
  · exact hval

/-! ## The framing of a buffer -/

theorem cstr_append {x : Bytes} (hx : (0 : UInt8) ∉ x) (y : Bytes) : cstr (x ++ y) = x ++ cstr y :=
  List.takeWhile_append_of_pos fun c hc => by
    have hne : c ≠ 0 := fun h => hx (h ▸ hc)
    simpa using hne

/-- A text with a NUL ends there for a reader. -/
theorem cstr_append_nul {x : Bytes} (hx : (0 : UInt8) ∈ x) (y : Bytes) : cstr (x ++ y) = cstr x := by
  induction x with
  | nil => cases hx
  | cons c x ih =>
      by_cases hc : c = 0
      · subst hc
        rfl
      · have hx' : (0 : UInt8) ∈ x := (List.mem_cons.mp hx).resolve_left fun h => hc h.symm
        rw [List.cons_append, cstr_cons hc, cstr_cons hc, ih hx']

/-- A reader sees of the front of a text the front of what it sees of the text. -/
theorem cstr_prefix {x y : Bytes} (h : x <+: y) : cstr x <+: cstr y := by
  obtain ⟨t, rfl⟩ := h
  by_cases hnul : (0 : UInt8) ∈ x
  · simp only [cstr_append_nul hnul, List.prefix_refl]
  · rw [cstr_append hnul, cstr_eq_self hnul]
    exact List.prefix_append x _

theorem isChunkedEncoding_named (hh : IsHeaderSection h) (hname : Names transferEncoding h) (rest : Bytes) :
    isChunkedEncoding (h ++ rest) = isChunkedEncoding h := by
  rw [isChunkedEncoding, isChunkedEncoding, headerValueLine_named hh hname]

theorem isChunkedEncoding_unnamed (hh : IsHeaderSection h) (hname : ¬ Names transferEncoding h) (rest : Bytes) :
    isChunkedEncoding (h ++ rest) = isChunkedEncoding rest := by
  rw [isChunkedEncoding, isChunkedEncoding, headerValueLine_unnamed hh hname]

theorem parseContentLength_named (hh : IsHeaderSection h) (hname : Names contentLength h) (rest : Bytes) :
    parseContentLength (h ++ rest) = parseContentLength h := by
  rw [parseContentLength, parseContentLength, headerValueLine_named hh hname]

theorem parseContentLength_unnamed (hh : IsHeaderSection h) (hname : ¬ Names contentLength h) (rest : Bytes) :
    parseContentLength (h ++ rest) = parseContentLength rest := by
  rw [parseContentLength, parseContentLength, headerValueLine_unnamed hh hname]

/-- Whatever of the body comes in with the header section, the answers about the framing are the same. -/
def FramingFixed (h : Bytes) : Prop :=
  ∀ b₁ b₂, isChunkedEncoding (cstr (h ++ b₁)) = isChunkedEncoding (cstr (h ++ b₂))
    ∧ parseContentLength (cstr (h ++ b₁)) = parseContentLength (cstr (h ++ b₂))

/-- A body that begins like a header line. -/
def chunkedLine : Bytes := ascii "Transfer-Encoding: chunked\r\n"
def lengthLine : Bytes := ascii "Content-Length: 0\r\n"

/-- **The framing depends only on the header section exactly where that names both fields**, or holds a NUL,
    which ends the search. -/
theorem framingFixed_iff (hh : IsHeaderSection h) :
    FramingFixed h ↔ (0 : UInt8) ∈ h ∨ Names transferEncoding h ∧ Names contentLength h := by
  by_cases hnul : (0 : UInt8) ∈ h
  · refine ⟨fun _ => Or.inl hnul, fun _ b₁ b₂ => ?_⟩
    rw [cstr_append_nul hnul, cstr_append_nul hnul]
    exact ⟨rfl, rfl⟩
  · constructor
    · intro hfixed
      right
      constructor
      · by_cases hte : Names transferEncoding h
        · exact hte
        · have hsame := (hfixed [] chunkedLine).1
          rw [cstr_append hnul, cstr_append hnul, isChunkedEncoding_unnamed hh hte,
            isChunkedEncoding_unnamed hh hte] at hsame
          exact absurd hsame (by decide +kernel)
      · by_cases hcl : Names contentLength h
        · exact hcl
        · have hsame := (hfixed [] lengthLine).2
          rw [cstr_append hnul, cstr_append hnul, parseContentLength_unnamed hh hcl,
            parseContentLength_unnamed hh hcl] at hsame
          exact absurd hsame (by decide +kernel)
    · rintro (hmem | ⟨hte, hcl⟩) b₁ b₂
      · exact absurd hmem hnul
      · rw [cstr_append hnul, cstr_append hnul]
        constructor
        · rw [isChunkedEncoding_named hh hte, isChunkedEncoding_named hh hte]
        · rw [parseContentLength_named hh hcl, parseContentLength_named hh hcl]

/-! ## The fetch, by the buffer it decides on -/

/-- The answer to a response whose header section came in as `buf`, over the stream behind it. -/
def respond (alloc : Nat → Bool) (buf : Bytes) (body : Stream) : Option MemBuf :=
  if parseStatus200 (cstr buf) then
    if isChunkedEncoding (cstr buf) then
      (readBodyChunked Stream.source (memAppend alloc) .empty body).map Prod.fst
    else
      match parseContentLength (cstr buf) with
      | some n => (readBodyKnown Stream.source (memAppend alloc) n .empty body).map Prod.fst
      | none => (readBodyUntilClose Stream.source (memAppend alloc) .empty body).map Prod.fst
  else none

theorem map_fst_carry {σ τ α : Type} {f : σ → τ} {r : Option (α × σ)} {q : Option (α × τ)} (h : q = carry f r) :
    r.map Prod.fst = q.map Prod.fst := by
  rw [h, carry, Option.map_map]
  rfl

/-- The readers do not see how the body arrives. -/
theorem readFramed_stream (alloc : Nat → Bool) (buf : Bytes) (src : IoSrc) (hstatus : parseStatus200 (cstr buf)) :
    readFramed alloc (cstr buf) src = respond alloc buf src.stream := by
  rw [readFramed, respond, if_pos hstatus]
  by_cases hchunked : isChunkedEncoding (cstr buf) = true
  · rw [if_pos hchunked, if_pos hchunked]
    exact map_fst_carry (readBodyChunked_map ioMap (memAppend alloc) .empty src)
  · rw [if_neg hchunked, if_neg hchunked]
    cases parseContentLength (cstr buf) with
    | none => exact map_fst_carry (readBodyUntilClose_map ioMap (memAppend alloc) .empty src)
    | some n => exact map_fst_carry (readBodyKnown_map ioMap (memAppend alloc) n .empty src)

/-! ## What the header loop ends with

With memory enough, it ends with the header section and as much of the body as came with its last byte. -/

/-- What a buffer shorter than the header section holds does not end it. -/
theorem headers_incomplete (hh : IsHeaderSection h) {p : Bytes} (hp : p <+: h) (hlt : p.length < h.length) :
    ¬ (strstr (crlf ++ crlf) (cstr p)).isSome := by
  obtain ⟨x, hx, _, hfirst⟩ := strstr_eq_some hh
  have hpre : cstr p <+: p := List.takeWhile_prefix _
  have hno : ¬ (crlf ++ crlf) <:+: cstr p :=
    hfirst _ (hpre.trans hp) (by rw [hx, List.length_append] at hlt; have := hpre.length_le; omega)
  rw [strstr_none_iff.mpr hno]
  decide

theorem headers_complete (hh : IsHeaderSection h) (hnul : (0 : UInt8) ∉ h) (b : Bytes) :
    strstr (crlf ++ crlf) (cstr (h ++ b)) = some (crlf ++ crlf ++ cstr b) := by
  rw [cstr_append hnul]
  exact strstr_append hh (cstr b)

variable {buf : MemBuf} {c c' : Conn} {bs rest : Bytes}

/-- A pass that does not complete the header section. -/
theorem readHttpHeaders_more (hh : IsHeaderSection h) (hlen : h.length ≤ 254 * 1024)
    (hrecv : connRecv c 2048 = some (bs, c')) (hbs : bs ≠ []) (hpre : buf.d ++ bs <+: h)
    (hlt : (buf.d ++ bs).length < h.length) :
    ∃ buf', buf'.d = buf.d ++ bs ∧ readHttpHeaders memory buf c = readHttpHeaders memory buf' c' := by
  obtain ⟨buf', hgrow⟩ := appendGrow_enough buf bs
  have hd := appendGrow_d hgrow
  refine ⟨buf', hd, ?_⟩
  have hgrow' : appendGrow memory buf bs = some buf' := hgrow
  rw [readHttpHeaders_pass, hrecv, Option.bind_some, if_neg hbs, hgrow', Option.bind_some,
    if_neg (by rw [hd]; omega), if_neg (by rw [hd]; exact headers_incomplete hh hpre hlt)]

/-- The pass that completes the header section. -/
theorem readHttpHeaders_done (hh : IsHeaderSection h) (hnul : (0 : UInt8) ∉ h) (hlen : h.length ≤ 254 * 1024)
    (hrecv : connRecv c 2048 = some (bs, c')) (hbs : bs ≠ []) {b : Bytes} (hbuf : buf.d ++ bs = h ++ b)
    (hb : b.length ≤ 2047) : ∃ buf', buf'.d = h ++ b ∧ readHttpHeaders memory buf c = some (buf', c') := by
  obtain ⟨buf', hgrow⟩ := appendGrow_enough buf bs
  have hd := appendGrow_d hgrow
  rw [hbuf] at hd
  refine ⟨buf', hd, ?_⟩
  have hgrow' : appendGrow memory buf bs = some buf' := hgrow
  have hsep : (strstr (crlf ++ crlf) (cstr buf'.d)).isSome := by
    rw [hd, headers_complete hh hnul]
    rfl
  rw [readHttpHeaders_pass, hrecv, Option.bind_some, if_neg hbs, hgrow', Option.bind_some,
    if_neg (by rw [hd, List.length_append]; omega), if_pos hsep]

/-- **The header loop** on a response whose header section fits. -/
theorem readHttpHeaders_complete (hh : IsHeaderSection h) (hnul : (0 : UInt8) ∉ h) (hlen : h.length ≤ 254 * 1024)
    (hall : buf.d ++ c.bytes = h ++ rest) (hlt : buf.d.length < h.length) :
    ∃ buf' c' b, readHttpHeaders memory buf c = some (buf', c') ∧ buf'.d = h ++ b ∧ b ++ c'.bytes = rest
      ∧ b.length ≤ 2047 ∧ c'.failing = c.failing := by
  induction hn : c.bytes.length using Nat.strongRecOn generalizing buf c with
  | ind n ih =>
      have hmore : c.bytes ≠ [] := by
        intro hnil
        have := congrArg List.length hall
        simp only [hnil, List.append_nil, List.length_append] at this
        omega
      cases hrecv : connRecv c 2048 with
      | none => exact absurd (connRecv_none hrecv).1 hmore
      | some x =>
          obtain ⟨bs, c₁⟩ := x
          have hbs : bs ≠ [] := by
            rintro rfl
            exact hmore (connRecv_end (by decide) hrecv).1
          obtain ⟨hbytes, hfail, hcap⟩ := connRecv_some hrecv
          have hall₁ : buf.d ++ bs ++ c₁.bytes = h ++ rest := by rw [List.append_assoc, ← hbytes, hall]
          have hpre : buf.d ++ bs <+: h ++ rest := ⟨c₁.bytes, hall₁⟩
          by_cases hdone : h.length ≤ (buf.d ++ bs).length
          · obtain ⟨b, hb⟩ := List.prefix_of_prefix_length_le (List.prefix_append h rest) hpre hdone
            have hrest : b ++ c₁.bytes = rest := by
              rw [← hb, List.append_assoc] at hall₁
              exact List.append_cancel_left hall₁
            have hblen : b.length ≤ 2047 := by
              have := congrArg List.length hb
              simp only [List.length_append] at this
              omega
            obtain ⟨buf', hd, hrun⟩ := readHttpHeaders_done hh hnul hlen hrecv hbs hb.symm hblen
            exact ⟨buf', c₁, b, hrun, hd, hrest, hblen, hfail⟩
          · have hpre' := List.prefix_of_prefix_length_le hpre (List.prefix_append h rest) (by omega)
            obtain ⟨buf', hd, hrun⟩ := readHttpHeaders_more hh hlen hrecv hbs hpre' (by omega)
            have hless : c₁.bytes.length < n := by
              have := List.length_pos_iff.mpr hbs
              rw [← hn, hbytes, List.length_append]
              omega
            have hall' : buf'.d ++ c₁.bytes = h ++ rest := by rw [hd, hall₁]
            obtain ⟨buf'', c'', b, hrun', hrest⟩ := ih _ hless hall' (by rw [hd]; omega) rfl
            rw [hfail] at hrest
            exact ⟨buf'', c'', b, hrun.trans hrun', hrest⟩

/-- A header section with a NUL is never found. -/
theorem readHttpHeaders_nul (hh : IsHeaderSection h) (hnul : (0 : UInt8) ∈ h) (alloc : Nat → Bool)
    (hall : buf.d ++ c.bytes = h ++ rest) : readHttpHeaders alloc buf c = none := by
  fun_induction readHttpHeaders alloc buf c with
  | case1 => rfl
  | case2 => rfl
  | case3 => rfl
  | case4 => rfl
  | case5 buf c b bs c₁ hrecv buf₁ hgrow hle hsome =>
      obtain ⟨hbytes, _, _⟩ := connRecv_some hrecv
      have hpre : buf₁.d <+: h ++ rest := by
        rw [appendGrow_d hgrow, ← hall, hbytes]
        exact ⟨c₁.bytes, by simp⟩
      have hcstr : cstr buf₁.d <+: cstr h := by
        rw [← cstr_append_nul hnul rest]
        exact cstr_prefix hpre
      have hlt : (cstr h).length < h.length := by
        have hcut : cstr h <+: h := List.takeWhile_prefix _
        refine Nat.lt_of_le_of_ne hcut.length_le fun heq => ?_
        exact nul_not_mem_cstr h (by rw [hcut.eq_of_length heq]; exact hnul)
      have hincomplete := headers_incomplete hh (hcstr.trans (List.takeWhile_prefix _))
        (Nat.lt_of_le_of_lt hcstr.length_le hlt)
      rw [cstr_eq_self (nul_not_mem_cstr _)] at hincomplete
      exact absurd hsome hincomplete
  | case6 buf c b bs c₁ hrecv buf₁ hgrow hle hnone ih =>
      obtain ⟨hbytes, _, _⟩ := connRecv_some hrecv
      refine ih ?_
      rw [appendGrow_d hgrow, List.append_assoc, ← hbytes, hall]

/-- **A response is answered by the buffer that the cuts of the socket leave**: the header section, and as
    much of the body as came with its last byte. -/
theorem fetchResponse_eq_respond (hh : IsHeaderSection h) (hnul : (0 : UInt8) ∉ h) {b : Bytes} {buf : MemBuf}
    {c c' : Conn} (hrun : readHttpHeaders memory .empty c = some (buf, c')) (hd : buf.d = h ++ b) :
    fetchResponse memory c = respond memory (h ++ b) ⟨b ++ c'.bytes, c'.failing⟩ := by
  have hsep := headers_complete hh hnul b
  obtain ⟨x, hx⟩ := hh.ends
  have hpos : (cstr (h ++ b)).length - (crlf ++ crlf ++ cstr b).length + 4 = h.length := by
    rw [cstr_append hnul, hx]
    simp [crlf]
  rw [fetchResponse, hrun]
  show (if parseStatus200 (cstr buf.d) = true then _ else none) = _
  rw [hd]
  by_cases hstatus : parseStatus200 (cstr (h ++ b)) = true
  · rw [if_pos hstatus, hsep]
    show readFramed memory (cstr (h ++ b)) ⟨(h ++ b).drop _, c'⟩ = _
    rw [hpos, List.drop_left, readFramed_stream memory (h ++ b) _ hstatus]
    rfl
  · rw [if_neg hstatus, respond, if_neg hstatus]

/-- Every way a response can be cut is one of these. -/
theorem fetchResponse_cases (hh : IsHeaderSection h) (hnul : (0 : UInt8) ∉ h) (hlen : h.length ≤ 254 * 1024)
    {c : Conn} {rest : Bytes} (hc : c.bytes = h ++ rest) :
    ∃ b, b <+: rest ∧ b.length ≤ 2047 ∧ fetchResponse memory c = respond memory (h ++ b) ⟨rest, c.failing⟩ := by
  have hpos : 0 < h.length := by
    obtain ⟨x, hx⟩ := hh.ends
    rw [hx]
    simp [crlf]
  have hstart : MemBuf.empty.d ++ c.bytes = h ++ rest := by rw [← hc]; rfl
  obtain ⟨buf', c', b, hrun, hd, hrest, hb, hfail⟩ := readHttpHeaders_complete hh hnul hlen hstart hpos
  refine ⟨b, ⟨c'.bytes, hrest⟩, hb, ?_⟩
  rw [fetchResponse_eq_respond hh hnul hrun hd, hrest, hfail]

/-- An arrival that is part of the header section goes into the buffer. -/
theorem readHttpHeaders_through (hh : IsHeaderSection h) (hlen : h.length ≤ 254 * 1024)
    (as : List { a : Bytes // a ≠ [] }) (failing : Bool) {a : Bytes} (ha : a ≠ []) (hpre : buf.d ++ a <+: h)
    (hlt : (buf.d ++ a).length < h.length) :
    ∃ buf', buf'.d = buf.d ++ a
      ∧ readHttpHeaders memory buf ⟨⟨a, ha⟩ :: as, failing⟩ = readHttpHeaders memory buf' ⟨as, failing⟩ := by
  induction hn : a.length using Nat.strongRecOn generalizing buf a with
  | ind n ih =>
      by_cases hlong : 2048 < a.length
      · -- `recv` takes what fits and leaves the rest of the arrival
        have hrecv : connRecv ⟨⟨a, ha⟩ :: as, failing⟩ 2048
            = some (a.take 2048, ⟨⟨a.drop 2048, by simp; omega⟩ :: as, failing⟩) := by
          simp [connRecv, hlong]
        have hsplit : buf.d ++ a = buf.d ++ a.take 2048 ++ a.drop 2048 := by
          rw [List.append_assoc, List.take_append_drop]
        have hne : a.take 2048 ≠ [] := by simp [ha]
        have hpre₁ : buf.d ++ a.take 2048 <+: h := by
          rw [hsplit] at hpre
          exact (List.prefix_append _ _).trans hpre
        have hlt₁ : (buf.d ++ a.take 2048).length < h.length := by
          rw [hsplit, List.length_append] at hlt
          omega
        obtain ⟨buf₁, hd₁, hrun₁⟩ := readHttpHeaders_more hh hlen hrecv hne hpre₁ hlt₁
        have hpre₂ : buf₁.d ++ a.drop 2048 <+: h := by rw [hd₁, ← hsplit]; exact hpre
        have hlt₂ : (buf₁.d ++ a.drop 2048).length < h.length := by rw [hd₁, ← hsplit]; exact hlt
        obtain ⟨buf₂, hd₂, hrun₂⟩ := ih (a.drop 2048).length (by rw [List.length_drop]; omega)
          (by simp; omega) hpre₂ hlt₂ rfl
        exact ⟨buf₂, by rw [hd₂, hd₁, ← hsplit], hrun₁.trans hrun₂⟩
      · have hrecv : connRecv ⟨⟨a, ha⟩ :: as, failing⟩ 2048 = some (a, ⟨as, failing⟩) := by
          simp [connRecv, hlong]
        exact readHttpHeaders_more hh hlen hrecv ha hpre hlt

/-- **Every short beginning of the body can come with the header section.** -/
theorem exists_cut (hh : IsHeaderSection h) (hnul : (0 : UInt8) ∉ h) (hlen : h.length ≤ 254 * 1024)
    {b rest : Bytes} (failing : Bool) (hb : b <+: rest) (hshort : b.length ≤ 2047) :
    ∃ c : Conn, c.bytes = h ++ rest ∧ c.failing = failing
      ∧ fetchResponse memory c = respond memory (h ++ b) ⟨rest, failing⟩ := by
  obtain ⟨tail, rfl⟩ := hb
  obtain ⟨x, hx⟩ := hh.ends
  -- all but the last byte of the header section, that byte with `b`, the rest
  obtain ⟨front, hfront⟩ : ∃ front, front = x ++ [ch '\r', ch '\n', ch '\r'] := ⟨_, rfl⟩
  have hsplit : h = front ++ [ch '\n'] := by rw [hx, hfront]; simp [crlf]
  have hne : front ≠ [] := by rw [hfront]; simp
  obtain ⟨more, hmore⟩ : ∃ more : List { a : Bytes // a ≠ [] }, more.unattach.flatten = tail := by
    by_cases htail : tail = []
    · exact ⟨[], by rw [htail]; rfl⟩
    · exact ⟨[⟨tail, htail⟩], by simp⟩
  refine ⟨⟨⟨front, hne⟩ :: ⟨ch '\n' :: b, List.cons_ne_nil _ _⟩ :: more, failing⟩, ?_, rfl, ?_⟩
  · simp [Conn.bytes, hmore, hsplit]
  · have hpre : MemBuf.empty.d ++ front <+: h := by rw [hsplit]; exact List.prefix_append _ _
    obtain ⟨buf₁, hd₁, hrun₁⟩ := readHttpHeaders_through hh hlen
      (⟨ch '\n' :: b, List.cons_ne_nil _ _⟩ :: more) failing hne hpre (by rw [hsplit]; simp [MemBuf.empty])
    have hrecv : connRecv ⟨⟨ch '\n' :: b, List.cons_ne_nil _ _⟩ :: more, failing⟩ 2048
        = some (ch '\n' :: b, ⟨more, failing⟩) := by
      simp [connRecv]
      omega
    have hd₁ : buf₁.d = front := hd₁
    have hall : buf₁.d ++ ch '\n' :: b = h ++ b := by rw [hd₁, hsplit]; simp
    obtain ⟨buf₂, hd₂, hrun₂⟩ := readHttpHeaders_done hh hnul hlen hrecv (List.cons_ne_nil _ _) hall hshort
    rw [fetchResponse_eq_respond hh hnul (hrun₁.trans hrun₂) hd₂]
    simp [Conn.bytes, hmore]

/-! ## Responses that do not depend on the cuts -/

/-- However the socket cuts the response, the fetch returns the same status and the same body. -/
def SameFetch (h rest : Bytes) (failing : Bool) : Prop :=
  ∀ (url : Bytes) (c₁ c₂ : Conn), c₁.stream = ⟨h ++ rest, failing⟩ → c₂.stream = ⟨h ++ rest, failing⟩ →
    (updateHttpFetch memory (fun _ _ => some c₁) url).map MemBuf.d
      = (updateHttpFetch memory (fun _ _ => some c₂) url).map MemBuf.d

theorem fetchResponse_nul (hh : IsHeaderSection h) (hnul : (0 : UInt8) ∈ h) {c : Conn} {rest : Bytes}
    (hc : c.bytes = h ++ rest) : fetchResponse memory c = none := by
  have hstart : MemBuf.empty.d ++ c.bytes = h ++ rest := by rw [← hc]; rfl
  rw [fetchResponse, readHttpHeaders_nul hh hnul memory hstart]

/-- The fetch is the answer to the response, for a URL that names a host. -/
theorem updateHttpFetch_host (c : Conn) :
    updateHttpFetch memory (fun _ _ => some c) (ascii "http://h/") = fetchResponse memory c := by
  have hurl : parseHttpUrl (ascii "http://h/") 512 4096 = some ⟨ascii "h", ascii "/", false, 80⟩ := by
    decide +kernel
  have hreq : snprintf 8192 (fetchRequest ⟨ascii "h", ascii "/", false, 80⟩)
      = some (fetchRequest ⟨ascii "h", ascii "/", false, 80⟩) := by decide +kernel
  rw [updateHttpFetch, hurl]
  simp only [hreq]

theorem updateHttpFetch_congr {c₁ c₂ : Conn}
    (hsame : (fetchResponse memory c₁).map MemBuf.d = (fetchResponse memory c₂).map MemBuf.d) (url : Bytes) :
    (updateHttpFetch memory (fun _ _ => some c₁) url).map MemBuf.d
      = (updateHttpFetch memory (fun _ _ => some c₂) url).map MemBuf.d := by
  rw [updateHttpFetch, updateHttpFetch]
  cases parseHttpUrl url 512 4096 with
  | none => rfl
  | some u =>
      cases hreq : snprintf 8192 (fetchRequest u) with
      | none => simp [hreq]
      | some req => simpa [hreq] using hsame

/-- **One response.** The fetch does not depend on the cuts exactly when every short beginning of the body
    that may come with the header section leaves the answer as it is. -/
theorem sameFetch_iff (hh : IsHeaderSection h) (hlen : h.length ≤ 254 * 1024) (rest : Bytes) (failing : Bool) :
    SameFetch h rest failing ↔ (0 : UInt8) ∈ h ∨ ∀ b, b <+: rest → b.length ≤ 2047 →
      (respond memory (h ++ b) ⟨rest, failing⟩).map MemBuf.d
        = (respond memory h ⟨rest, failing⟩).map MemBuf.d := by
  constructor
  · intro hsame
    by_cases hnul : (0 : UInt8) ∈ h
    · exact Or.inl hnul
    · refine Or.inr fun b hb hshort => ?_
      obtain ⟨c₁, hc₁, hf₁, hrun₁⟩ := exists_cut hh hnul hlen failing hb hshort
      obtain ⟨c₂, hc₂, hf₂, hrun₂⟩ := exists_cut hh hnul hlen failing (List.nil_prefix (l := rest)) (Nat.zero_le _)
      have heq := hsame (ascii "http://h/") c₁ c₂ (by rw [Conn.stream, hc₁, hf₁]) (by rw [Conn.stream, hc₂, hf₂])
      rw [updateHttpFetch_host, updateHttpFetch_host, hrun₁, hrun₂, List.append_nil] at heq
      exact heq
  · intro hcond url c₁ c₂ h₁ h₂
    obtain ⟨hb₁, hf₁⟩ := Stream.mk.inj h₁
    obtain ⟨hb₂, hf₂⟩ := Stream.mk.inj h₂
    refine updateHttpFetch_congr ?_ url
    by_cases hnul : (0 : UInt8) ∈ h
    · rw [fetchResponse_nul hh hnul hb₁, fetchResponse_nul hh hnul hb₂]
    · have hall := hcond.resolve_left hnul
      obtain ⟨b₁, hpre₁, hshort₁, hrun₁⟩ := fetchResponse_cases hh hnul hlen hb₁
      obtain ⟨b₂, hpre₂, hshort₂, hrun₂⟩ := fetchResponse_cases hh hnul hlen hb₂
      rw [hrun₁, hrun₂, hf₁, hf₂, hall b₁ hpre₁ hshort₁, hall b₂ hpre₂ hshort₂]

theorem parseStatus200_append (hh : IsHeaderSection h) (rest : Bytes) :
    parseStatus200 (h ++ rest) = parseStatus200 h := by
  obtain ⟨x, hx⟩ := hh.ends
  cases hs : strstr crlf h with
  | none => exact absurd ⟨x, crlf, by rw [hx]; simp⟩ (strstr_none_iff.mp hs)
  | some e =>
      obtain ⟨pre, hpre, _⟩ := strstr_eq_some hs
      rw [parseStatus200, parseStatus200, strstr_append hs, hs]
      have hline : (h ++ rest).take ((h ++ rest).length - (e ++ rest).length) = h.take (h.length - e.length) := by
        rw [hpre, take_before pre e, List.append_assoc, take_before pre (e ++ rest)]
      simp only [hline]

/-- The header section decides what becomes of the response. -/
def Settled (h : Bytes) : Prop :=
  (0 : UInt8) ∈ h ∨ parseStatus200 h = false
    ∨ Names transferEncoding h ∧ (isChunkedEncoding h = true ∨ Names contentLength h)

theorem respond_append (hh : IsHeaderSection h) (hnul : (0 : UInt8) ∉ h) (b : Bytes) (body : Stream) :
    respond memory (h ++ b) body =
      if parseStatus200 h then
        if isChunkedEncoding (h ++ cstr b) then
          (readBodyChunked Stream.source (memAppend memory) .empty body).map Prod.fst
        else
          match parseContentLength (h ++ cstr b) with
          | some n => (readBodyKnown Stream.source (memAppend memory) n .empty body).map Prod.fst
          | none => (readBodyUntilClose Stream.source (memAppend memory) .empty body).map Prod.fst
      else none := by
  rw [respond, cstr_append hnul, parseStatus200_append hh]

/-- A settled response is answered in one way. -/
theorem respond_settled (hh : IsHeaderSection h) (hnul : (0 : UInt8) ∉ h) (hset : Settled h) (b : Bytes)
    (body : Stream) : respond memory (h ++ b) body = respond memory (h ++ []) body := by
  rw [respond_append hh hnul, respond_append hh hnul]
  rcases hset with hmem | hstatus | ⟨hte, hchunked | hcl⟩
  · exact absurd hmem hnul
  · rw [hstatus]
    rfl
  · rw [isChunkedEncoding_named hh hte, isChunkedEncoding_named hh hte, hchunked]
    simp only [if_true]
  · rw [isChunkedEncoding_named hh hte, isChunkedEncoding_named hh hte, parseContentLength_named hh hcl,
      parseContentLength_named hh hcl]

/-- A body of known length has that length. -/
theorem length_of_known {n : Nat} {body : Stream} {buf : MemBuf} {end' : Stream}
    (hrun : readBodyKnown Stream.source (memAppend memory) n .empty body = some (buf, end')) :
    buf.d.length = n := by
  have happ {out out' : MemBuf} {bs : Bytes} (hput : memAppend memory out bs = some out') : out'.d = out.d ++ bs :=
    appendGrow_d (memAppend_eq_some.mp hput).1
  obtain ⟨data, hlen, _, _, hd⟩ := readBlocks_eq_some happ (Nat.zero_le n) hrun
  rw [hd]
  simpa [MemBuf.empty] using hlen

/-- **A header section that does not decide** can be followed by a body that does, in two ways. -/
theorem exists_unsettled (hh : IsHeaderSection h) (hset : ¬ Settled h) :
    ∃ rest b, b <+: rest ∧ b.length ≤ 2047
      ∧ (respond memory (h ++ b) ⟨rest, false⟩).map MemBuf.d
          ≠ (respond memory (h ++ []) ⟨rest, false⟩).map MemBuf.d := by
  simp only [Settled, not_or, not_and] at hset
  obtain ⟨hnul, hstatus, hfields⟩ := hset
  have hstatus : parseStatus200 h = true := by simpa using hstatus
  have hrespond (b : Bytes) (body : Stream) := respond_append hh hnul b body
  simp only [hstatus, if_true] at hrespond
  by_cases hte : Names transferEncoding h
  · -- the section says that the body is not chunked, and a line of the body says how long it is
    obtain ⟨hchunked, hcl⟩ := hfields hte
    refine ⟨lengthLine, lengthLine, List.prefix_refl _, by decide, ?_⟩
    rw [hrespond, hrespond, isChunkedEncoding_named hh hte, isChunkedEncoding_named hh hte, if_neg hchunked,
      if_neg hchunked, parseContentLength_unnamed hh hcl, parseContentLength_unnamed hh hcl]
    decide +kernel
  · have hbody : isChunkedEncoding (h ++ cstr chunkedLine) = true := by
      rw [isChunkedEncoding_unnamed hh hte]
      decide +kernel
    have hnone : ¬ isChunkedEncoding (h ++ cstr []) = true := by
      rw [isChunkedEncoding_unnamed hh hte]
      decide +kernel
    -- a line of the body says that it is chunked, and its first chunk is the last one
    have hempty : (readBodyChunked Stream.source (memAppend memory) .empty ⟨chunkedLine ++ crlf, false⟩).map Prod.fst
        = some .empty := by decide +kernel
    by_cases hcl : Names contentLength h
    · cases hlen : parseContentLength (h ++ cstr []) with
      | none =>
          refine ⟨chunkedLine ++ crlf, chunkedLine, List.prefix_append _ _, by decide, ?_⟩
          rw [hrespond, hrespond, if_pos hbody, if_neg hnone, hlen, hempty]
          decide +kernel
      | some n =>
          by_cases hzero : n = 0
          · subst hzero
            refine ⟨chunkedLine, chunkedLine, List.prefix_refl _, by decide, ?_⟩
            rw [hrespond, hrespond, if_pos hbody, if_neg hnone, hlen]
            decide +kernel
          · refine ⟨chunkedLine ++ crlf, chunkedLine, List.prefix_append _ _, by decide, ?_⟩
            rw [hrespond, hrespond, if_pos hbody, if_neg hnone, hlen, hempty]
            intro heq
            obtain ⟨buf, hbuf, hd⟩ := Option.map_eq_some_iff.mp heq.symm
            obtain ⟨⟨_, end'⟩, hrun, rfl⟩ := Option.map_eq_some_iff.mp hbuf
            have hlength := length_of_known hrun
            rw [hd] at hlength
            exact hzero hlength.symm
    · refine ⟨chunkedLine ++ crlf, chunkedLine, List.prefix_append _ _, by decide, ?_⟩
      rw [hrespond, hrespond, if_pos hbody, if_neg hnone, parseContentLength_unnamed hh hcl, hempty]
      decide +kernel

/-- **All responses with one header section.** No fetch depends on the cuts exactly when the header section
    decides. -/
theorem sameFetch_all_iff (hh : IsHeaderSection h) (hlen : h.length ≤ 254 * 1024) :
    (∀ rest failing, SameFetch h rest failing) ↔ Settled h := by
  constructor
  · intro hsame
    by_cases hset : Settled h
    · exact hset
    · obtain ⟨rest, b, hb, hshort, hne⟩ := exists_unsettled hh hset
      rcases (sameFetch_iff hh hlen rest false).mp (hsame rest false) with hnul | hall
      · exact Or.inl hnul
      · have heq := hall b hb hshort
        rw [List.append_nil] at hne
        exact absurd heq hne
  · intro hset rest failing
    refine (sameFetch_iff hh hlen rest failing).mpr ?_
    by_cases hnul : (0 : UInt8) ∈ h
    · exact Or.inl hnul
    · refine Or.inr fun b _ _ => ?_
      have heq := respond_settled hh hnul hset b ⟨rest, failing⟩
      rw [List.append_nil] at heq
      rw [heq]

/-- **Message framing.** For a header section `h`:
    the answers about the framing depend on it alone exactly when it names both fields or holds a NUL;
    no fetch depends on how the socket cuts the response exactly when `h` decides (`Settled`);
    and the fetch of one response is the same for all cuts exactly when no beginning of the body that can
    come in with the header section changes the answer. -/
theorem framing_iff (h : Bytes) (hh : IsHeaderSection h) :
    (FramingFixed h ↔ (0 : UInt8) ∈ h ∨ Names transferEncoding h ∧ Names contentLength h)
      ∧ (h.length ≤ 254 * 1024 →
          ((∀ rest failing, SameFetch h rest failing) ↔ Settled h)
            ∧ ∀ rest failing, SameFetch h rest failing ↔ (0 : UInt8) ∈ h ∨ ∀ b, b <+: rest → b.length ≤ 2047 →
                (respond memory (h ++ b) ⟨rest, failing⟩).map MemBuf.d
                  = (respond memory h ⟨rest, failing⟩).map MemBuf.d) :=
  ⟨framingFixed_iff hh, fun hlen => ⟨sameFetch_all_iff hh hlen, sameFetch_iff hh hlen⟩⟩

theorem framing_iff_both_named :
    FramingFixed (ascii "HTTP 200 OK\r\nContent-Length: 5\r\nTransfer-Encoding: identity\r\n\r\n") :=
  (framing_iff (ascii "HTTP 200 OK\r\nContent-Length: 5\r\nTransfer-Encoding: identity\r\n\r\n")
    (by decide +kernel)).1.mpr (by decide +kernel)

/-- A response without either field: whether the beginning of its body comes in with the header section
    decides how long the body is. -/
theorem framing_follows_the_cuts :
    ¬ FramingFixed (ascii "HTTP 200 OK\r\n\r\n")
      ∧ ¬ SameFetch (ascii "HTTP 200 OK\r\n\r\n") (ascii "Content-Length: 0\r\n and more") false := by
  constructor
  · intro hfixed
    exact absurd (hfixed [] lengthLine).2 (by decide +kernel)
  · intro hsame
    have heq := hsame (ascii "http://h/")
      ⟨[⟨ascii "HTTP 200 OK\r\n\r\nContent-Length: 0\r\n and more", by decide⟩], false⟩
      ⟨[⟨ascii "HTTP 200 OK\r\n\r\n", by decide⟩, ⟨ascii "Content-Length: 0\r\n and more", by decide⟩], false⟩
      (by decide +kernel) (by decide +kernel)
    exact absurd heq (by decide +kernel)

end LibUpdate
