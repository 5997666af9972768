import LibUpdate.Http.Chunked

/-!
# `Http.Encoding` — chunked bodies, and what the reader makes of them

A chunked body is a list of chunks, each a size line, its data and a CRLF, closed by a size line of zero
(`ChunkedBody`). Every chunked body is a walk, so decoding undoes encoding. The converse holds where the
walk meets no line that an encoder does not write: the reader stops at any size line without digits as if
the body were complete, and does not look at what stands behind the digits of the others.
-/

namespace LibUpdate

/-! ## Chunked bodies -/

/-- What may stand behind the digits of a size line for the digits to be read: nothing, or text without CRLF that
    begins with a semicolon or a blank. -/
structure BehindDigits (ext : Bytes) : Prop where
  head : ∀ c ∈ ext.head?, c = ch ';' ∨ c = ch ' ' ∨ c = ch '\t'
  no_crlf : ¬ crlf <:+: ext

/-- A chunk extension: nothing, or a semicolon, with or without blanks before it, and any text. -/
def ChunkExt (ext : Bytes) : Prop :=
  ext = [] ∨ ∃ blanks text, ext = blanks ++ ch ';' :: text ∧ ∀ c ∈ blanks, c = ch ' ' ∨ c = ch '\t'

/-- A size line: hexadecimal digits of either case, with any leading zeros, and what stands behind them. -/
structure SizeLine where
  digits : Bytes
  ext : Bytes
  nonempty : digits ≠ []
  hex : ∀ c ∈ digits, isDigitOf 16 c = true
  extension : BehindDigits ext
  short : (digits ++ ext ++ crlf).length ≤ 95

def SizeLine.text (l : SizeLine) : Bytes := l.digits ++ l.ext ++ crlf

def SizeLine.value (l : SizeLine) : Nat := digitsValue 16 l.digits

/-- A chunk of data, of a length that a machine word can count. -/
structure Chunk where
  line : SizeLine
  data : Bytes
  size : line.value = data.length
  nonempty : data ≠ []
  countable : data.length < UInt64.size

def Chunk.wire (c : Chunk) : Bytes := c.line.text ++ (c.data ++ crlf)

/-- A body cut into chunks, as any encoder may write it: how the body is cut, how each size is written and what
    stands behind it are free. -/
structure ChunkedBody where
  chunks : List Chunk
  last : SizeLine
  last_zero : last.value = 0

/-- The encoding up to and including the size line of zero. What an encoder sends behind it, trailers or nothing,
    the readers do not look at. -/
def ChunkedBody.wire (b : ChunkedBody) : Bytes := b.chunks.flatMap Chunk.wire ++ b.last.text

def ChunkedBody.body (b : ChunkedBody) : Bytes := b.chunks.flatMap Chunk.data

/-- What stands behind the digits are chunk extensions: the body is a chunked encoding. -/
structure ChunkedBody.WellFormed (b : ChunkedBody) : Prop where
  chunks : ∀ c ∈ b.chunks, ChunkExt c.line.ext
  last : ChunkExt b.last.ext

/-! ## Size lines are read as they are written -/

theorem SizeLine.isLine (l : SizeLine) : IsLine l.text := by
  refine ⟨⟨l.digits ++ l.ext, rfl, ?_⟩, l.short⟩
  have hdigits : ∀ ds : Bytes, (∀ c ∈ ds, isDigitOf 16 c = true) → ¬ crlf <:+: ds ++ l.ext := by
    intro ds hhex
    induction ds with
    | nil => exact l.extension.no_crlf
    | cons d ds ih =>
        have hd := hexDigit_plain (hhex d List.mem_cons_self)
        rw [List.cons_append, crlf_infix_cons hd.2.2.2.2.2.2]
        exact ih fun c hc => hhex c (List.mem_cons_of_mem d hc)
  exact hdigits l.digits l.hex

/-- A size line is read as its value, if that fits. -/
theorem SizeLine.strtoull_text (l : SizeLine) :
    strtoull 16 l.text = if l.value ≥ UInt64.size then UInt64.size - 1 else l.value := by
  rw [SizeLine.text, List.append_assoc]
  refine strtoull_digits (by decide) l.nonempty l.hex ?_
  intro c hc
  cases hext : l.ext with
  | nil =>
      rw [hext] at hc
      obtain rfl : ch '\r' = c := by simpa [crlf] using hc
      decide
  | cons e es =>
      rw [hext] at hc
      obtain rfl : e = c := by simpa using hc
      rcases l.extension.head e (by rw [hext]; rfl) with rfl | rfl | rfl <;> decide

/-! ## Bodies and walks -/

/-- The chunk as the reader takes it. -/
def Chunk.toPiece (c : Chunk) : Piece where
  sizeLine := c.line.text
  data := c.data
  terminator := crlf
  size_line := c.line.isLine
  size := by rw [c.line.strtoull_text, if_neg (by rw [c.size]; exact Nat.not_le.mpr c.countable), c.size]
  nonempty := c.nonempty
  term_line := isLine_crlf

/-- The body as the reader takes it, with a line behind it. -/
def ChunkedBody.toWalk (b : ChunkedBody) (trailer : Bytes) (ht : IsLine trailer) : Walk where
  pieces := b.chunks.map Chunk.toPiece
  lastLine := b.last.text
  trailer := trailer
  last_line := b.last.isLine
  last_size := by rw [b.last.strtoull_text, b.last_zero]; rfl
  trailer_line := ht

theorem ChunkedBody.wire_toWalk (b : ChunkedBody) {trailer : Bytes} (ht : IsLine trailer) :
    (b.toWalk trailer ht).wire = b.wire := by
  simp [Walk.wire, ChunkedBody.wire, ChunkedBody.toWalk, List.flatMap_map]
  rfl

theorem ChunkedBody.body_toWalk (b : ChunkedBody) {trailer : Bytes} (ht : IsLine trailer) :
    (b.toWalk trailer ht).body = b.body := by
  simp [Walk.body, ChunkedBody.body, ChunkedBody.toWalk, List.flatMap_map]
  rfl

/-- A file whose writes succeed takes everything. -/
theorem fwrite_takes (total : Bytes) : Takes (fwrite fun _ _ => false) id total := by
  refine ⟨?_, fun out bs _ => ⟨out ++ bs, rfl⟩⟩
  intro out bs out' h
  cases h
  rfl

theorem carry_eq_some {σ τ α : Type} {f : σ → τ} {r : Option (α × σ)} {a : α} {t : τ}
    (h : carry f r = some (a, t)) : ∃ s, r = some (a, s) ∧ f s = t := by
  obtain ⟨⟨a', s⟩, hr, heq⟩ := Option.map_eq_some_iff.mp h
  cases heq
  exact ⟨s, hr, rfl⟩

/-- **Decoding undoes encoding.** Whatever the cut into chunks and the rendering of the size lines, with any
    extensions, and however the encoded body comes in with the headers and in `recv` results, the reader writes
    the body and leaves what follows. -/
theorem readBodyChunkedSrc_encoded (b : ChunkedBody) (rest : Bytes) (s : IoSrc)
    (hs : s.pfx ++ s.conn.bytes = b.wire ++ (crlf ++ rest)) :
    ∃ s', readBodyChunkedSrc (fun _ _ => false) s = some (b.body, s') ∧ s'.pfx ++ s'.conn.bytes = rest := by
  have hstream : s.stream = ⟨(b.toWalk crlf isLine_crlf).wire ++ (crlf ++ rest), s.conn.failing⟩ := by
    rw [b.wire_toWalk, ← hs]
    rfl
  obtain ⟨out, hrun, hout⟩ := readBodyChunked_of_walk (b.toWalk crlf isLine_crlf) (fwrite_takes b.body) []
    (by rw [b.body_toWalk]; exact List.prefix_refl _) rest s.conn.failing
  have hmap := readBodyChunked_map ioMap (fwrite fun _ _ => false) [] s
  rw [show ioMap.map s = s.stream from rfl, hstream] at hmap
  rw [show (b.toWalk crlf isLine_crlf).trailer = crlf from rfl, hmap] at hrun
  obtain ⟨s', hread, hend⟩ := carry_eq_some hrun
  have hbody : out = b.body := by rw [← b.body_toWalk isLine_crlf]; exact hout
  refine ⟨s', by rw [← hbody]; exact hread, ?_⟩
  exact congrArg Stream.bytes hend

/-- Two chunks with an extension and leading zeros, cut in the middle of a size line and of the data. -/
theorem readBodyChunkedSrc_encoded_hello :
    ∃ s', readBodyChunkedSrc (fun _ _ => false)
        ⟨ascii "0", ⟨[⟨ascii "5;n=1\r\nhel", by decide⟩, ⟨ascii "lo\r\nA\r\n big world\r", by decide⟩,
          ⟨ascii "\n00\r\n\r\n", by decide⟩], false⟩⟩ = some (ascii "hello big world", s')
      ∧ s'.pfx ++ s'.conn.bytes = [] :=
  readBodyChunkedSrc_encoded
    ⟨[⟨⟨ascii "05", ascii ";n=1", by decide, by decide +kernel, ⟨by decide +kernel, by decide⟩, by decide⟩,
        ascii "hello", by decide, by decide, by decide⟩,
      ⟨⟨ascii "A", [], by decide, by decide +kernel, ⟨by decide +kernel, by decide⟩, by decide⟩,
        ascii " big world", by decide, by decide, by decide⟩],
      ⟨ascii "00", [], by decide, by decide +kernel, ⟨by decide +kernel, by decide⟩, by decide⟩, by decide⟩ []
    ⟨ascii "0", ⟨[⟨ascii "5;n=1\r\nhel", by decide⟩, ⟨ascii "lo\r\nA\r\n big world\r", by decide⟩,
      ⟨ascii "\n00\r\n\r\n", by decide⟩], false⟩⟩ (by decide)

/-! ## Which streams are accepted as something they are not -/

/-- A walk is determined by its bytes. -/
theorem Walk.unique {w w' : Walk} {r r' : Bytes}
    (h : w.wire ++ (w.trailer ++ r) = w'.wire ++ (w'.trailer ++ r')) : w = w' ∧ r = r' := by
  obtain ⟨ps, last, tr, hlast, hzero, htr⟩ := w
  obtain ⟨ps', last', tr', hlast', hzero', htr'⟩ := w'
  have hnonzero (p : Piece) : strtoull 16 p.sizeLine ≠ 0 := by
    rw [p.size]
    exact fun h => p.nonempty (List.eq_nil_of_length_eq_zero h)
  induction ps generalizing ps' with
  | nil =>
      cases ps' with
      | nil =>
          obtain ⟨rfl, htail⟩ := isLine_unique hlast hlast' h
          obtain ⟨rfl, hr⟩ := isLine_unique htr htr' htail
          exact ⟨rfl, hr⟩
      | cons p' ps' =>
          simp only [Walk.wire, List.flatMap_nil, List.nil_append, List.flatMap_cons, Piece.wire,
            List.append_assoc] at h
          obtain ⟨rfl, _⟩ := isLine_unique hlast p'.size_line h
          exact absurd hzero (hnonzero p')
  | cons p ps ih =>
      cases ps' with
      | nil =>
          simp only [Walk.wire, List.flatMap_nil, List.nil_append, List.flatMap_cons, Piece.wire,
            List.append_assoc] at h
          obtain ⟨rfl, _⟩ := isLine_unique hlast' p.size_line h.symm
          exact absurd hzero' (hnonzero p)
      | cons p' ps' =>
          obtain ⟨size, data, term, hsize, hlen, hne, hterm⟩ := p
          obtain ⟨size', data', term', hsize', hlen', hne', hterm'⟩ := p'
          simp only [Walk.wire, List.flatMap_cons, Piece.wire, List.append_assoc] at h
          obtain ⟨rfl, hdata⟩ := isLine_unique hsize hsize' h
          -- the same size line announces as much data
          obtain ⟨rfl, hrest⟩ := List.append_inj hdata (hlen.symm.trans hlen')
          obtain ⟨rfl, hnext⟩ := isLine_unique hterm hterm' hrest
          obtain ⟨heq, hr⟩ := ih ps' (by simpa [Walk.wire] using hnext)
          cases heq
          exact ⟨rfl, hr⟩

/-- A line that an encoder writes for a size that fits in a machine word. -/
def IsSizeLine (l : Bytes) : Prop := ∃ sl : SizeLine, sl.text = l ∧ ChunkExt sl.ext ∧ sl.value < UInt64.size

/-- Blanks stand before a semicolon only, or behind it. -/
theorem IsSizeLine.semicolon {l : Bytes} (h : IsSizeLine l) (hblank : ch ' ' ∈ l) : ch ';' ∈ l := by
  obtain ⟨sl, rfl, hext | ⟨blanks, text, hext, -⟩, -⟩ := h
  · rw [SizeLine.text, hext, List.append_nil] at hblank
    rcases List.mem_append.mp hblank with hdigit | hline
    · exact absurd (sl.hex _ hdigit) (by decide)
    · exact absurd hline (by decide)
  · rw [SizeLine.text, hext]
    simp

example : ¬ IsSizeLine (ascii "0 6\r\n") := fun h => absurd (h.semicolon (by decide)) (by decide)

/-- A walk over lines that an encoder writes. -/
structure Walk.Clean (w : Walk) : Prop where
  sizes : ∀ p ∈ w.pieces, IsSizeLine p.sizeLine
  terminators : ∀ p ∈ w.pieces, p.terminator = crlf
  last : IsSizeLine w.lastLine

theorem exists_chunks {ps : List Piece} (hsizes : ∀ p ∈ ps, IsSizeLine p.sizeLine)
    (hterms : ∀ p ∈ ps, p.terminator = crlf) :
    ∃ cs : List Chunk, cs.map Chunk.toPiece = ps ∧ ∀ c ∈ cs, ChunkExt c.line.ext := by
  induction ps with
  | nil => exact ⟨[], rfl, nofun⟩
  | cons p ps ih =>
      obtain ⟨cs, rfl, hcs⟩ := ih (fun q hq => hsizes q (List.mem_cons_of_mem p hq))
        (fun q hq => hterms q (List.mem_cons_of_mem p hq))
      obtain ⟨size, data, term, hsize, hlen, hne, hterm⟩ := p
      obtain ⟨sl, rfl, hext, hsmall⟩ := hsizes _ List.mem_cons_self
      obtain rfl : term = crlf := hterms _ List.mem_cons_self
      have hvalue : sl.value = data.length := by
        rw [← hlen, sl.strtoull_text, if_neg (Nat.not_le.mpr hsmall)]
      exact ⟨⟨sl, data, hvalue, hne, hvalue ▸ hsmall⟩ :: cs, rfl, List.forall_mem_cons.mpr ⟨hext, hcs⟩⟩

/-- **The clean walks are the chunked encodings.** -/
theorem Walk.clean_iff (w : Walk) :
    w.Clean ↔ ∃ b : ChunkedBody, b.WellFormed ∧ b.toWalk w.trailer w.trailer_line = w := by
  constructor
  · intro h
    obtain ⟨ps, last, tr, hlast, hzero, htr⟩ := w
    obtain ⟨cs, rfl, hcs⟩ := exists_chunks h.sizes h.terminators
    obtain ⟨sl, rfl, hext, hsmall⟩ := h.last
    rw [sl.strtoull_text, if_neg (Nat.not_le.mpr hsmall)] at hzero
    exact ⟨⟨cs, sl, hzero⟩, ⟨hcs, hext⟩, rfl⟩
  · rintro ⟨b, hwell, hb⟩
    rw [← hb]
    refine ⟨?_, ?_, b.last, rfl, hwell.last, by rw [b.last_zero]; decide⟩
    · intro p hp
      obtain ⟨c, hc, rfl⟩ := List.mem_map.mp hp
      exact ⟨c.line, rfl, hwell.chunks c hc, by rw [c.size]; exact c.countable⟩
    · intro p hp
      obtain ⟨c, _, rfl⟩ := List.mem_map.mp hp
      rfl

/-- What a reader accepts at `s` is the encoding of what it hands on, up to and including the size line of
    zero, and one more line. -/
def OnlyEncodings (read : IoSrc → Option (Bytes × IoSrc)) (s : IoSrc) : Prop :=
  ∀ body s', read s = some (body, s') → ∃ (b : ChunkedBody) (trailer : Bytes), b.WellFormed ∧ IsLine trailer
    ∧ s.pfx ++ s.conn.bytes = b.wire ++ (trailer ++ (s'.pfx ++ s'.conn.bytes)) ∧ body = b.body

section Soundness

variable {β : Type} {put : β → Bytes → Option β} {contents : β → Bytes}

/-- **Soundness, for any destination.** Of the streams that are accepted, the encodings are those whose walk
    is clean. -/
theorem onlyEncodings_iff (out : β) (fits : Bytes → Prop) (s : IoSrc) (hempty : contents out = [])
    (happ : ∀ {out bs out'}, put out bs = some out' → contents out' = contents out ++ bs)
    (hfits : ∀ {out' s'}, readBodyChunked ioSource put out s = some (out', s') → fits (contents out')) :
    (∀ w : Walk, ∀ rest, s.pfx ++ s.conn.bytes = w.wire ++ (w.trailer ++ rest) → fits w.body → w.Clean) →
      OnlyEncodings (fun s => (readBodyChunked ioSource put out s).map fun x => (contents x.1, x.2)) s := by
  intro hclean body s' hread
  obtain ⟨⟨out', s₁⟩, hrun, heq⟩ := Option.map_eq_some_iff.mp hread
  cases heq
  have hflat : readBodyChunked Stream.source put out s.stream = some (out', s₁.stream) := by
    have hmap := readBodyChunked_map ioMap put out s
    rw [hrun] at hmap
    exact hmap
  obtain ⟨w, hwire, _, hbody⟩ := readBodyChunked_walk happ hflat
  rw [hempty, List.nil_append] at hbody
  obtain ⟨b, hwell, hb⟩ := w.clean_iff.mp (hclean w _ hwire (hbody ▸ hfits hrun))
  refine ⟨b, w.trailer, hwell, w.trailer_line, ?_, ?_⟩
  · rw [← b.wire_toWalk w.trailer_line, hb]
    exact hwire
  · rw [← b.body_toWalk w.trailer_line, hb]
    exact hbody

/-- A walk that a reader takes for an encoding is one. -/
theorem clean_of_onlyEncodings {out : β} {s : IoSrc} (hempty : contents out = []) {w : Walk} (rest : Bytes)
    (hwire : s.pfx ++ s.conn.bytes = w.wire ++ (w.trailer ++ rest)) (ht : Takes put contents w.body)
    (h : OnlyEncodings (fun s => (readBodyChunked ioSource put out s).map fun x => (contents x.1, x.2)) s) :
    w.Clean := by
  obtain ⟨out', hrun, hout⟩ := readBodyChunked_of_walk w ht out (by rw [hempty]; exact List.prefix_refl _)
    rest s.conn.failing
  rw [← hwire] at hrun
  have hmap := readBodyChunked_map ioMap put out s
  obtain ⟨s', hread, hend⟩ := carry_eq_some (hmap.symm.trans hrun)
  have hrest : s'.pfx ++ s'.conn.bytes = rest := congrArg Stream.bytes hend
  have hread : (readBodyChunked ioSource put out s).map (fun x => (contents x.1, x.2))
      = some (contents out', s') := by
    rw [hread]
    rfl
  obtain ⟨b, trailer, hwell, htr, hbytes, _⟩ := h _ _ hread
  rw [hwire, hrest, ← b.wire_toWalk htr] at hbytes
  obtain ⟨rfl, _⟩ : w = b.toWalk trailer htr ∧ _ := Walk.unique hbytes
  exact (b.toWalk trailer htr).clean_iff.mpr ⟨b, hwell, rfl⟩

end Soundness

theorem memAppend_d {alloc : Nat → Bool} {buf buf' : MemBuf} {bs : Bytes}
    (h : memAppend alloc buf bs = some buf') : buf'.d = buf.d ++ bs :=
  appendGrow_d (memAppend_eq_some.mp h).1

/-- With memory, a body up to the limit is taken. -/
theorem memAppend_takes {total : Bytes} (h : total.length ≤ updateHttpFetchMax) :
    Takes (memAppend fun _ => true) MemBuf.d total := by
  refine ⟨memAppend_d, ?_⟩
  intro buf bs hpre
  obtain ⟨b, hb⟩ := appendGrow_enough buf bs
  refine ⟨b, memAppend_eq_some.mpr ⟨hb, ?_⟩⟩
  rw [appendGrow_d hb]
  exact Nat.le_trans hpre.length_le h

/-- The file holds what was written to it. -/
theorem readBodyChunkedSrc_contents (fails : Bytes → Bytes → Bool) : readBodyChunkedSrc fails
    = fun s => (readBodyChunked ioSource (fwrite fails) [] s).map fun x => (id x.1, x.2) := by
  funext s
  exact Option.map_id'.symm

/-- **The chunked readers accept only chunked bodies exactly where the walk meets no line that an encoder
    does not write**: no size line that does not begin with a hexadecimal digit, goes on with anything but
    CRLF or an extension (a semicolon, with or without blanks before it), or does not fit in 64 bits, and nothing
    between the data and its CRLF. -/
theorem onlyEncodings_chunked_iff (s : IoSrc) :
    ((∀ fails, OnlyEncodings (readBodyChunkedSrc fails) s)
        ↔ ∀ (w : Walk) (rest : Bytes), s.pfx ++ s.conn.bytes = w.wire ++ (w.trailer ++ rest) → w.Clean)
      ∧ ((∀ alloc, OnlyEncodings (fun s => (readBodyChunkedSrcMem alloc s).map fun x => (x.1.d, x.2)) s)
        ↔ ∀ (w : Walk) (rest : Bytes), s.pfx ++ s.conn.bytes = w.wire ++ (w.trailer ++ rest) →
            w.body.length ≤ updateHttpFetchMax → w.Clean) := by
  refine ⟨⟨?_, ?_⟩, ⟨?_, ?_⟩⟩
  · intro h w rest hwire
    have h := h fun _ _ => false
    rw [readBodyChunkedSrc_contents] at h
    exact clean_of_onlyEncodings rfl rest hwire (fwrite_takes w.body) h
  · intro hclean fails
    rw [readBodyChunkedSrc_contents]
    exact onlyEncodings_iff [] (fun _ => True) s rfl (fwrite_appends fails) (fun _ => trivial)
      fun w rest hwire _ => hclean w rest hwire
  · intro h w rest hwire hlen
    have hempty : MemBuf.d .empty = [] := rfl
    exact clean_of_onlyEncodings hempty rest hwire (memAppend_takes hlen) (h fun _ => true)
  · intro hclean alloc
    exact onlyEncodings_iff .empty (fun body => body.length ≤ updateHttpFetchMax) s rfl
      memAppend_d
      (fun hrun => readBodyChunked_keeps (fun buf => buf.d.length ≤ updateHttpFetchMax)
        (fun hput _ => (memAppend_eq_some.mp hput).2) (Nat.zero_le _) hrun)
      hclean

/-- What the reader makes of a body whose second size line is damaged: `g` in the place of `6`. -/
def damagedWalk : Walk where
  pieces := [⟨ascii "5\r\n", ascii "hello", crlf, ⟨⟨ascii "5", rfl, by decide⟩, by decide⟩, by decide, by decide,
    isLine_crlf⟩]
  lastLine := ascii "g\r\n"
  trailer := ascii " world\r\n"
  last_line := ⟨⟨ascii "g", rfl, by decide⟩, by decide⟩
  last_size := by decide
  trailer_line := ⟨⟨ascii " world", rfl, by decide⟩, by decide⟩

theorem damagedWalk_not_clean : ¬ damagedWalk.Clean := by
  intro hclean
  obtain ⟨sl, htext, _⟩ := hclean.last
  -- the line does not begin with a digit
  obtain ⟨d, ds, hdigits⟩ := List.exists_cons_of_ne_nil sl.nonempty
  have hhex := sl.hex d (by rw [hdigits]; exact List.mem_cons_self)
  have hhead : d = ch 'g' := by
    have h := congrArg List.head? htext
    rw [SizeLine.text, hdigits] at h
    exact Option.some.inj h
  rw [hhead] at hhex
  exact absurd hhex (by decide)

/-- Both readers take the damaged size line for the end of the body, as if it were complete. -/
theorem damagedWalk_accepted :
    (¬ ∀ fails, OnlyEncodings (readBodyChunkedSrc fails)
        ⟨ascii "5\r\nhello\r\ng\r\n world\r\n0\r\n\r\n", ⟨[], false⟩⟩)
      ∧ ¬ ∀ alloc, OnlyEncodings (fun s => (readBodyChunkedSrcMem alloc s).map fun x => (x.1.d, x.2))
        ⟨ascii "5\r\nhello\r\ng\r\n world\r\n0\r\n\r\n", ⟨[], false⟩⟩ := by
  constructor
  · intro h
    have h := h fun _ _ => false
    rw [readBodyChunkedSrc_contents] at h
    exact damagedWalk_not_clean (clean_of_onlyEncodings rfl (ascii "0\r\n\r\n") (by decide)
      (fwrite_takes damagedWalk.body) h)
  · intro h
    have hempty : MemBuf.d .empty = [] := rfl
    exact damagedWalk_not_clean (clean_of_onlyEncodings hempty (ascii "0\r\n\r\n") (by decide)
      (memAppend_takes (by decide)) (h fun _ => true))

end LibUpdate
