import LibUpdate.Http.Body

/-!
# `Http.Chunked` — what the chunked reader accepts

The reader walks over a stream from size line to size line: a size line is any line, with whatever size
`strtoull` finds in it, and any line may stand behind the data (`Walk`). It accepts exactly the streams
that begin with a walk (`readBodyChunked_walk`, `readBodyChunked_of_walk`).
-/

namespace LibUpdate

/-! ## Lines -/

/-- A line as `read_line_src` reads it: up to the first CRLF, which is the end of it, in the 95 bytes that
    `line` has room for. -/
structure IsLine (l : Bytes) : Prop where
  text : ∃ x, l = x ++ crlf ∧ ¬ crlf <:+: x
  short : l.length ≤ 95

theorem crlf_infix_cons {c : UInt8} {x : Bytes} (hc : c ≠ ch '\r') : crlf <:+: c :: x ↔ crlf <:+: x := by
  rw [List.infix_cons_iff]
  constructor
  · rintro (h | h)
    · exact absurd (List.cons_prefix_cons.mp h).1.symm hc
    · exact h
  · exact Or.inr

theorem isLine_crlf : IsLine crlf := ⟨⟨[], rfl, by decide⟩, by decide⟩

/-- **A line is read as far as its CRLF.** -/
theorem readLineLoop_line {line x rest : Bytes} {failing : Bool} (hx : ¬ crlf <:+: line ++ x)
    (hlen : line.length + x.length ≤ 93) :
    readLineLoop Stream.source 96 line ⟨x ++ (crlf ++ rest), failing⟩
      = some (line ++ x ++ crlf, ⟨rest, failing⟩) := by
  have hread (c : UInt8) (cs : Bytes) :
      Stream.source.read ⟨c :: cs, failing⟩ 1 = some ([c], ⟨cs, failing⟩) := Stream.read_append [c] cs failing
  induction x generalizing line with
  | nil =>
      -- the carriage return does not end the line, the line feed behind it does
      have hcr : ¬ [ch '\r', ch '\n'] <:+ line ++ [ch '\r'] := not_crlf_suffix_concat (by decide)
      have hlf : [ch '\r', ch '\n'] <:+ line ++ [ch '\r'] ++ [ch '\n'] := ⟨line, by simp⟩
      rw [List.nil_append]
      show readLineLoop Stream.source 96 line ⟨ch '\r' :: ch '\n' :: rest, failing⟩ = _
      rw [readLineLoop, if_pos (by omega), hread]
      show (if _ then _ else readLineLoop Stream.source 96 (line ++ [ch '\r']) ⟨ch '\n' :: rest, failing⟩) = _
      rw [if_neg hcr, readLineLoop, if_pos (by rw [List.length_append, List.length_singleton]; omega), hread]
      show (if _ then some (line ++ [ch '\r'] ++ [ch '\n'], (⟨rest, failing⟩ : Stream)) else _) = _
      rw [if_pos hlf]
      simp [crlf]
  | cons c x ih =>
      have hsplit : line ++ c :: x = line ++ [c] ++ x := by simp
      have hgo : ¬ [ch '\r', ch '\n'] <:+ line ++ [c] := by
        intro h
        rw [hsplit] at hx
        exact hx ((h.isInfix).trans (List.prefix_append _ x).isInfix)
      rw [List.length_cons] at hlen
      have hno : ¬ crlf <:+: line ++ [c] ++ x := by rwa [← hsplit]
      have hrec := ih hno (by rw [List.length_append, List.length_singleton]; omega)
      rw [List.cons_append, readLineLoop, if_pos (by omega), hread]
      show (if _ then _ else readLineLoop Stream.source 96 (line ++ [c]) _) = _
      rw [if_neg hgo, hrec, hsplit]

theorem readLine_line {l rest : Bytes} {failing : Bool} (h : IsLine l) :
    readLine Stream.source ⟨l ++ rest, failing⟩ = some (l, ⟨rest, failing⟩) := by
  obtain ⟨⟨x, rfl, hx⟩, hshort⟩ := h
  have hlen : x.length ≤ 93 := by simp [crlf] at hshort; omega
  rw [List.append_assoc]
  have hno : ¬ crlf <:+: [] ++ x := hx
  exact readLineLoop_line hno (by simpa using hlen)

/-- What was read as a line is one. -/
theorem readLineLoop_eq_some {line l : Bytes} {s s' : Stream} (hline : ¬ crlf <:+: line)
    (h : readLineLoop Stream.source 96 line s = some (l, s')) :
    ∃ y, l = y ++ crlf ∧ ¬ crlf <:+: y ∧ line ++ s.bytes = l ++ s'.bytes ∧ s'.failing = s.failing := by
  fun_induction readLineLoop Stream.source 96 line s with
  | case1 line s hlt c s₁ hread hend =>
      cases h
      obtain ⟨hbytes, hfail, _⟩ := Stream.read_eq_some hread
      obtain ⟨y, hy⟩ := hend
      refine ⟨y, hy.symm, ?_, by rw [hbytes]; simp, hfail⟩
      have hinit := congrArg List.dropLast hy
      rw [List.dropLast_concat] at hinit
      have hpre : y <+: line := ⟨[ch '\r'], by rw [← hinit, List.dropLast_append_of_ne_nil (by simp)]; rfl⟩
      exact fun hin => hline (hin.trans hpre.isInfix)
  | case2 line s hlt c s₁ hread hend ih =>
      obtain ⟨hbytes, hfail, _⟩ := Stream.read_eq_some hread
      have hno : ¬ crlf <:+: line ++ [c] := by
        rw [List.infix_concat_iff]
        exact not_or.mpr ⟨hend, hline⟩
      obtain ⟨y, hy, hyno, hcat, hfail'⟩ := ih hno h
      refine ⟨y, hy, hyno, ?_, hfail'.trans hfail⟩
      rw [← hcat, hbytes]
      simp
  | case3 => cases h
  | case4 => cases h

theorem readLine_eq_some {l : Bytes} {s s' : Stream} (h : readLine Stream.source s = some (l, s')) :
    IsLine l ∧ s.bytes = l ++ s'.bytes ∧ s'.failing = s.failing := by
  have hnil : ¬ crlf <:+: [] := by decide
  obtain ⟨y, hy, hno, hcat, hfail⟩ := readLineLoop_eq_some hnil h
  obtain ⟨_, _, hshort⟩ := readLineLoop_left Stream.source h
  exact ⟨⟨⟨y, hy, hno⟩, by omega⟩, hcat, hfail⟩

/-- A stream has one first line. -/
theorem isLine_unique {l l' r r' : Bytes} (h : IsLine l) (h' : IsLine l') (heq : l ++ r = l' ++ r') :
    l = l' ∧ r = r' := by
  have hread : readLine Stream.source ⟨l ++ r, false⟩ = some (l, ⟨r, false⟩) := readLine_line h
  rw [heq, readLine_line h'] at hread
  cases hread
  exact ⟨rfl, rfl⟩

/-! ## Blocks of data

`contents` says what a destination holds. -/

/-- A destination that takes blocks as long as what it holds is the beginning of `total`. -/
structure Takes {β : Type} (put : β → Bytes → Option β) (contents : β → Bytes) (total : Bytes) : Prop where
  appends : ∀ {out bs out'}, put out bs = some out' → contents out' = contents out ++ bs
  takes : ∀ out bs, contents out ++ bs <+: total → ∃ out', put out bs = some out'

section Blocks

variable {β : Type} {put : β → Bytes → Option β} {contents : β → Bytes}

theorem blockSize_le (rest : Nat) (h : 0 < rest) : 0 < blockSize rest ∧ blockSize rest ≤ rest := by
  unfold blockSize
  split <;> omega

/-- The blocks that were read are the next bytes of the stream, and the destination holds them. -/
theorem readBlocks_eq_some (happ : ∀ {out bs out'}, put out bs = some out' → contents out' = contents out ++ bs)
    {n i : Nat} {out out' : β} {s s' : Stream} (hi : i ≤ n)
    (h : readBlocks Stream.source put n i out s = some (out', s')) :
    ∃ data, data.length = n - i ∧ s.bytes = data ++ s'.bytes ∧ s'.failing = s.failing
      ∧ contents out' = contents out ++ data := by
  fun_induction readBlocks Stream.source put n i out s with
  | case1 => cases h
  | case2 => cases h
  | case3 => cases h
  | case4 i out s hlt b bs s₁ hread out₁ hput ih =>
      obtain ⟨hbytes, hfail, hlen⟩ := Stream.read_eq_some hread
      have hsize := blockSize_le (n - i) (by omega)
      obtain ⟨data, hdata, hbytes', hfail', hout⟩ := ih (by omega) h
      refine ⟨b :: bs ++ data, ?_, ?_, hfail'.trans hfail, ?_⟩
      · rw [List.length_append, hdata]
        omega
      · rw [hbytes, hbytes', List.append_assoc]
      · rw [hout, happ hput, List.append_assoc]
  | case5 i out s hge =>
      cases h
      exact ⟨[], by simp; omega, rfl, rfl, by simp⟩

/-- A destination with room takes all the blocks. -/
theorem readBlocks_takes {total : Bytes} (ht : Takes put contents total) (rest : Bytes) (failing : Bool)
    {n i : Nat} {out : β} {data : Bytes} (hi : i ≤ n) (hlen : data.length = n - i)
    (hroom : contents out ++ data <+: total) :
    ∃ out', readBlocks Stream.source put n i out ⟨data ++ rest, failing⟩ = some (out', ⟨rest, failing⟩)
      ∧ contents out' = contents out ++ data := by
  induction hk : n - i using Nat.strongRecOn generalizing i out data with
  | ind k ih =>
      by_cases hdone : i < n
      · have hsize := blockSize_le (n - i) (by omega)
        obtain ⟨m, hm⟩ : ∃ m, m = blockSize (n - i) := ⟨_, rfl⟩
        rw [← hm] at hsize
        have hblock : (data.take m).length = m := List.length_take_of_le (by omega)
        obtain ⟨b, bs, hbs⟩ : ∃ b bs, data.take m = b :: bs := List.exists_cons_of_length_pos (by omega)
        have hsplit : contents out ++ data = contents out ++ data.take m ++ data.drop m := by
          rw [List.append_assoc, List.take_append_drop]
        have hread : Stream.source.read ⟨data ++ rest, failing⟩ m
            = some (b :: bs, ⟨data.drop m ++ rest, failing⟩) := by
          have h := Stream.read_append (data.take m) (data.drop m ++ rest) failing
          rwa [← List.append_assoc, List.take_append_drop, hblock, hbs] at h
        obtain ⟨out₁, hput⟩ := ht.takes out (b :: bs) (by
          rw [← hbs]
          rw [hsplit] at hroom
          exact (List.prefix_append _ _).trans hroom)
        have hout₁ := ht.appends hput
        rw [← hbs] at hout₁
        have hlen₁ : (data.drop m).length = n - (i + m) := by rw [List.length_drop]; omega
        obtain ⟨out₂, hrun, hout₂⟩ := ih (n - (i + m)) (by omega) (by omega) hlen₁
          (by rwa [hout₁, ← hsplit]) rfl
        refine ⟨out₂, ?_, by rw [hout₂, hout₁, ← hsplit]⟩
        rw [readBlocks, if_pos hdone, ← hm, hread]
        simp only [hput]
        rw [← hbs, hblock]
        exact hrun
      · have hnil : data = [] := List.eq_nil_of_length_eq_zero (by omega)
        subst hnil
        refine ⟨out, ?_, by simp⟩
        rw [readBlocks, if_neg hdone]
        rfl

end Blocks

/-! ## Walks -/

/-- What the reader takes for a chunk: its size line, its data, and the line behind them. -/
structure Piece where
  sizeLine : Bytes
  data : Bytes
  terminator : Bytes
  size_line : IsLine sizeLine
  size : strtoull 16 sizeLine = data.length
  nonempty : data ≠ []
  term_line : IsLine terminator

def Piece.wire (p : Piece) : Bytes := p.sizeLine ++ (p.data ++ p.terminator)

/-- What the reader takes for a body: chunks, a size line of zero, and the line behind it. -/
structure Walk where
  pieces : List Piece
  lastLine : Bytes
  trailer : Bytes
  last_line : IsLine lastLine
  last_size : strtoull 16 lastLine = 0
  trailer_line : IsLine trailer

/-- The bytes of a walk up to and including the size line of zero. -/
def Walk.wire (w : Walk) : Bytes := w.pieces.flatMap Piece.wire ++ w.lastLine

def Walk.body (w : Walk) : Bytes := w.pieces.flatMap Piece.data

def Walk.cons (p : Piece) (w : Walk) : Walk := { w with pieces := p :: w.pieces }

theorem Walk.wire_cons (p : Piece) (w : Walk) : (w.cons p).wire = p.wire ++ w.wire := by
  simp [Walk.wire, Walk.cons]

theorem Walk.body_cons (p : Piece) (w : Walk) : (w.cons p).body = p.data ++ w.body := by
  simp [Walk.body, Walk.cons]

section Acceptance

variable {β : Type} {put : β → Bytes → Option β} {contents : β → Bytes}

/-- **What the chunked reader accepts is a walk**, and the destination holds its body. -/
theorem readBodyChunked_walk
    (happ : ∀ {out bs out'}, put out bs = some out' → contents out' = contents out ++ bs)
    {out out' : β} {s s' : Stream} (h : readBodyChunked Stream.source put out s = some (out', s')) :
    ∃ w : Walk, s.bytes = w.wire ++ (w.trailer ++ s'.bytes) ∧ s'.failing = s.failing
      ∧ contents out' = contents out ++ w.body := by
  fun_induction readBodyChunked Stream.source put out s with
  | case1 => cases h
  | case2 => cases h
  | case3 out s line s₁ hline hzero trailer s₂ htrailer =>
      cases h
      obtain ⟨hl, hbytes, hfail⟩ := readLine_eq_some hline
      obtain ⟨ht, hbytes', hfail'⟩ := readLine_eq_some htrailer
      refine ⟨⟨[], line, trailer, hl, hzero, ht⟩, ?_, hfail'.trans hfail, by simp [Walk.body]⟩
      rw [hbytes, hbytes']
      rfl
  | case4 => cases h
  | case5 => cases h
  | case6 out s line s₁ hline hzero out₁ s₂ hdata term s₃ hterm ih =>
      obtain ⟨hl, hbytes, hfail⟩ := readLine_eq_some hline
      obtain ⟨data, hlen, hbytes₁, hfail₁, hout⟩ := readBlocks_eq_some happ (Nat.zero_le _) hdata
      obtain ⟨ht, hbytes₂, hfail₂⟩ := readLine_eq_some hterm
      obtain ⟨w, hw, hfail₃, hbody⟩ := ih h
      have hne : data ≠ [] := by
        rintro rfl
        exact hzero (by simpa using hlen.symm)
      refine ⟨w.cons ⟨line, data, term, hl, by simpa using hlen.symm, hne, ht⟩, ?_, ?_, ?_⟩
      · rw [Walk.wire_cons, hbytes, hbytes₁, hbytes₂, hw]
        simp [Piece.wire, Walk.cons]
      · rw [hfail₃, hfail₂, hfail₁, hfail]
      · rw [hbody, hout, Walk.body_cons, List.append_assoc]

/-- **Every walk is accepted** where the destination takes its body. -/
theorem readBodyChunked_of_walk (w : Walk) {total : Bytes} (ht : Takes put contents total) (out : β)
    (hroom : contents out ++ w.body <+: total) (rest : Bytes) (failing : Bool) :
    ∃ out', readBodyChunked Stream.source put out ⟨w.wire ++ (w.trailer ++ rest), failing⟩
        = some (out', ⟨rest, failing⟩) ∧ contents out' = contents out ++ w.body := by
  obtain ⟨pieces, lastLine, trailer, hlast, hzero, htrailer⟩ := w
  induction pieces generalizing out with
  | nil =>
      refine ⟨out, ?_, by simp [Walk.body]⟩
      show readBodyChunked _ _ _ (Stream.mk (lastLine ++ (trailer ++ rest)) failing) = _
      rw [readBodyChunked_pass, readLine_line hlast, Option.bind_some, if_pos hzero, readLine_line htrailer]
      rfl
  | cons p pieces ih =>
      have hbody : (Walk.mk (p :: pieces) lastLine trailer hlast hzero htrailer).body
          = p.data ++ (Walk.mk pieces lastLine trailer hlast hzero htrailer).body := by
        simp [Walk.body]
      rw [hbody, ← List.append_assoc] at hroom
      obtain ⟨out₁, hdata, hout₁⟩ := readBlocks_takes ht (p.terminator ++
          ((Walk.mk pieces lastLine trailer hlast hzero htrailer).wire ++ (trailer ++ rest))) failing
        (Nat.zero_le _) (Nat.sub_zero p.data.length).symm ((List.prefix_append _ _).trans hroom)
      have hroom₁ : contents out₁ ++ (Walk.mk pieces lastLine trailer hlast hzero htrailer).body <+: total := by
        rwa [hout₁]
      obtain ⟨out₂, hrun, hout₂⟩ := ih out₁ hroom₁
      refine ⟨out₂, ?_, by rw [hout₂, hout₁, hbody, List.append_assoc]⟩
      have hwire : (Walk.mk (p :: pieces) lastLine trailer hlast hzero htrailer).wire ++ (trailer ++ rest)
          = p.sizeLine ++ (p.data ++ (p.terminator
            ++ ((Walk.mk pieces lastLine trailer hlast hzero htrailer).wire ++ (trailer ++ rest)))) := by
        simp [Walk.wire, Piece.wire]
      have hpos : strtoull 16 p.sizeLine ≠ 0 := by
        rw [p.size]
        exact fun h => p.nonempty (List.eq_nil_of_length_eq_zero h)
      rw [hwire, readBodyChunked_pass, readLine_line p.size_line, Option.bind_some, if_neg hpos, p.size, hdata,
        Option.bind_some, readLine_line p.term_line]
      exact hrun

end Acceptance

end LibUpdate
