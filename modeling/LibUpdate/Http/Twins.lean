import LibUpdate.Http.Encoding

/-!
# `Http.Twins` — the file readers and the in-memory readers

`update_download` reads bodies into a file and `update_check` reads them into memory, each with loops of its
own. The loops differ in one thing: after every block the in-memory ones look at the length so far. So the
result of an in-memory reader is the result of its twin, cut to the bodies within the limit: a body that is
over the limit is over it from some block on, because bodies only grow.
-/

namespace LibUpdate

/-! ## The simulation -/

section Simulation

variable {σ : Type} {src : Source σ}

/-- A file that takes every write. -/
abbrev fwriteAll : Bytes → Bytes → Option Bytes := fwrite fun _ _ => false

/-- Memory that is never short. -/
abbrev memAppendAll : MemBuf → Bytes → Option MemBuf := memAppend fun _ => true

/-- What a reader of the file returned, where the body is within the limit of the in-memory readers. -/
def within (r : Option (Bytes × σ)) : Option (Bytes × σ) :=
  r.filter fun x => x.1.length ≤ updateHttpFetchMax

/-- What an in-memory reader returned, with the text in the place of the buffer. -/
def inMemory (r : Option (MemBuf × σ)) : Option (Bytes × σ) := r.map fun x => (x.1.d, x.2)

theorem within_some_of_le {x : Bytes × σ} (h : x.1.length ≤ updateHttpFetchMax) : within (some x) = some x := by
  unfold within
  rw [Option.filter_some, if_pos (by simpa using h)]

/-- A body that is over the limit is cut, whichever it is. -/
theorem within_eq_none {r : Option (Bytes × σ)} (h : ∀ x, r = some x → updateHttpFetchMax < x.1.length) :
    within r = none := by
  cases r with
  | none => rfl
  | some x =>
      have hlong := h x rfl
      unfold within
      rw [Option.filter_some, if_neg]
      simp only [decide_eq_true_eq]
      omega

/-- A file only grows. -/
theorem fwriteAll_grows {k : Nat} {out bs out' : Bytes} (h : fwriteAll out bs = some out') (hk : k < out.length) :
    k < out'.length := by
  rw [fwrite_appends _ h, List.length_append]
  omega

theorem fwriteAll_eq (out bs : Bytes) : fwriteAll out bs = some (out ++ bs) := rfl

/-- A block that memory takes, the file takes. -/
theorem fwriteAll_of_memAppendAll {buf buf' : MemBuf} {bs : Bytes} (h : memAppendAll buf bs = some buf') :
    fwriteAll buf.d bs = some buf'.d := by
  rw [fwriteAll_eq, memAppend_d h]

/-- A block that memory does not take makes the body too long. -/
theorem memAppendAll_none {buf : MemBuf} {bs : Bytes} (h : memAppendAll buf bs = none) :
    updateHttpFetchMax < (buf.d ++ bs).length := by
  apply Nat.lt_of_not_le
  intro hfits
  obtain ⟨buf', hb⟩ := (memAppend_takes hfits).takes buf bs (List.prefix_refl _)
  cases hb.symm.trans h

theorem memAppendAll_le {buf buf' : MemBuf} {bs : Bytes} (h : memAppendAll buf bs = some buf') :
    buf'.d.length ≤ updateHttpFetchMax := (memAppend_eq_some.mp h).2

/-- **The blocks of a body**: one read after the other, the two loops go together until the body is too
    long. -/
theorem readBlocks_twins {n i : Nat} {buf : MemBuf} {s : σ} (hbuf : buf.d.length ≤ updateHttpFetchMax) :
    inMemory (readBlocks src memAppendAll n i buf s) = within (readBlocks src fwriteAll n i buf.d s) := by
  fun_induction readBlocks src memAppendAll n i buf s with
  | case1 i buf s hlt hread =>
      rw [readBlocks, if_pos hlt, hread]
      rfl
  | case2 i buf s hlt s₁ hread =>
      rw [readBlocks, if_pos hlt, hread]
      rfl
  | case3 i buf s hlt b bs s₁ hread hput =>
      -- too long from here on
      have hlong := memAppendAll_none hput
      symm
      rw [readBlocks, if_pos hlt, hread]
      apply within_eq_none
      intro x hx
      exact readBlocks_keeps (fun out => updateHttpFetchMax < out.length) fwriteAll_grows hlong hx
  | case4 i buf s hlt b bs s₁ hread buf₁ hput ih =>
      have hfile : readBlocks src fwriteAll n i buf.d s
          = readBlocks src fwriteAll n (i + (b :: bs).length) buf₁.d s₁ := by
        rw [readBlocks, if_pos hlt, hread]
        simp only [fwriteAll_of_memAppendAll hput]
      rw [ih (memAppendAll_le hput), hfile]
  | case5 i buf s hlt =>
      rw [readBlocks, if_neg hlt]
      exact (within_some_of_le hbuf).symm

theorem inMemory_eq_some {r : Option (MemBuf × σ)} {buf : MemBuf} {s : σ} (h : r = some (buf, s)) :
    inMemory r = some (buf.d, s) := by
  rw [h]
  rfl

/-- What the file reader returned where the in-memory reader went on: the same text. -/
theorem eq_some_of_within {r : Option (Bytes × σ)} {x : Bytes × σ} (h : some x = within r) :
    r = some x ∧ x.1.length ≤ updateHttpFetchMax := by
  obtain ⟨hr, hle⟩ := Option.filter_eq_some_iff.mp h.symm
  exact ⟨hr, by simpa using hle⟩

/-- Blocks that memory takes, the file takes. -/
theorem readBlocks_taken {n i : Nat} {buf buf' : MemBuf} {s s' : σ} (hbuf : buf.d.length ≤ updateHttpFetchMax)
    (h : readBlocks src memAppendAll n i buf s = some (buf', s')) :
    readBlocks src fwriteAll n i buf.d s = some (buf'.d, s') ∧ buf'.d.length ≤ updateHttpFetchMax := by
  have htwins : some (buf'.d, s') = within (readBlocks src fwriteAll n i buf.d s) := by
    rw [← readBlocks_twins hbuf, inMemory_eq_some h]
  exact eq_some_of_within htwins

/-- Where memory does not take the blocks, the file has too many of them, if it has them at all. -/
theorem readBlocks_not_taken {n i : Nat} {buf : MemBuf} {s : σ} {y : Bytes × σ}
    (hbuf : buf.d.length ≤ updateHttpFetchMax) (h : readBlocks src memAppendAll n i buf s = none)
    (hy : readBlocks src fwriteAll n i buf.d s = some y) : updateHttpFetchMax < y.1.length := by
  have htwins : none = within (some y) := by
    rw [← hy, ← readBlocks_twins hbuf, h]
    rfl
  apply Nat.lt_of_not_le
  intro hle
  rw [within_some_of_le hle] at htwins
  cases htwins

/-- **The chunked readers.** -/
theorem readBodyChunked_twins {buf : MemBuf} {s : σ} (hbuf : buf.d.length ≤ updateHttpFetchMax) :
    inMemory (readBodyChunked src memAppendAll buf s) = within (readBodyChunked src fwriteAll buf.d s) := by
  fun_induction readBodyChunked src memAppendAll buf s with
  | case1 buf s hline =>
      rw [readBodyChunked_pass, hline]
      rfl
  | case2 buf s line s₁ hline hzero hend =>
      rw [readBodyChunked_pass, hline, Option.bind_some, if_pos hzero, hend]
      rfl
  | case3 buf s line s₁ hline hzero last s₂ hend =>
      rw [readBodyChunked_pass, hline, Option.bind_some, if_pos hzero, hend]
      exact (within_some_of_le hbuf).symm
  | case4 buf s line s₁ hline hzero hdata =>
      -- either the data ends too early, or it is too long and what follows does not make it shorter
      rw [readBodyChunked_pass, hline, Option.bind_some, if_neg hzero]
      symm
      apply within_eq_none
      intro x hx
      obtain ⟨y, hy, hx⟩ := Option.bind_eq_some_iff.mp hx
      obtain ⟨z, _, hx⟩ := Option.bind_eq_some_iff.mp hx
      exact readBodyChunked_keeps (fun out => updateHttpFetchMax < out.length) fwriteAll_grows
        (readBlocks_not_taken hbuf hdata hy) hx
  | case5 buf s line s₁ hline hzero buf₁ s₂ hdata hterm =>
      obtain ⟨hdata, _⟩ := readBlocks_taken hbuf hdata
      rw [readBodyChunked_pass, hline, Option.bind_some, if_neg hzero, hdata, Option.bind_some, hterm]
      rfl
  | case6 buf s line s₁ hline hzero buf₁ s₂ hdata term s₃ hterm ih =>
      obtain ⟨hdata, hle⟩ := readBlocks_taken hbuf hdata
      have hfile : readBodyChunked src fwriteAll buf.d s = readBodyChunked src fwriteAll buf₁.d s₃ := by
        rw [readBodyChunked_pass, hline, Option.bind_some, if_neg hzero, hdata, Option.bind_some, hterm,
          Option.bind_some]
      rw [ih hle, hfile]

/-- **The readers of a known length.** -/
theorem readBodyKnown_twins (nbytes : Nat) {buf : MemBuf} {s : σ} (hbuf : buf.d.length ≤ updateHttpFetchMax) :
    inMemory (readBodyKnown src memAppendAll nbytes buf s) = within (readBodyKnown src fwriteAll nbytes buf.d s) :=
  readBlocks_twins hbuf

/-- **The readers until the end of the stream.** -/
theorem readBodyUntilClose_twins {buf : MemBuf} {s : σ} (hbuf : buf.d.length ≤ updateHttpFetchMax) :
    inMemory (readBodyUntilClose src memAppendAll buf s)
      = within (readBodyUntilClose src fwriteAll buf.d s) := by
  fun_induction readBodyUntilClose src memAppendAll buf s with
  | case1 buf s hread =>
      rw [readBodyUntilClose_pass, hread]
      rfl
  | case2 buf s s₁ hread =>
      rw [readBodyUntilClose_pass, hread]
      exact (within_some_of_le hbuf).symm
  | case3 buf s b bs s₁ hread hput =>
      have hlong := memAppendAll_none hput
      symm
      rw [readBodyUntilClose_pass, hread, Option.bind_some, if_neg (List.cons_ne_nil b bs), fwriteAll_eq,
        Option.bind_some]
      apply within_eq_none
      intro x hx
      exact readBodyUntilClose_keeps (fun out => updateHttpFetchMax < out.length) fwriteAll_grows hlong hx
  | case4 buf s b bs s₁ hread buf₁ hput ih =>
      have hfile : readBodyUntilClose src fwriteAll buf.d s = readBodyUntilClose src fwriteAll buf₁.d s₁ := by
        rw [readBodyUntilClose_pass, hread, Option.bind_some, if_neg (List.cons_ne_nil b bs),
          fwriteAll_of_memAppendAll hput, Option.bind_some]
      rw [ih (memAppendAll_le hput), hfile]

end Simulation

/-! ## The length that is known -/

/-- What is taken in blocks is the next bytes of the stream, all that were wanted. -/
theorem readBlocks_exact {n i : Nat} {out out' : Bytes} {s s' : Stream} (hi : i ≤ n)
    (h : readBlocks Stream.source fwriteAll n i out s = some (out', s')) :
    ∃ body, out' = out ++ body ∧ body.length = n - i ∧ s.bytes = body ++ s'.bytes := by
  fun_induction readBlocks Stream.source fwriteAll n i out s with
  | case1 => cases h
  | case2 => cases h
  | case3 => cases h
  | case4 i out s hlt b bs s₁ hread out₁ hput ih =>
      obtain ⟨hbytes, _, hlen⟩ := Stream.read_eq_some hread
      have hsize : blockSize (n - i) ≤ n - i := by
        unfold blockSize
        split <;> omega
      have hle : (b :: bs).length ≤ n - i := by omega
      obtain ⟨body, hout, hbody, hrest⟩ := ih (by omega) h
      refine ⟨b :: bs ++ body, ?_, ?_, ?_⟩
      · rw [hout, fwrite_appends _ hput, List.append_assoc]
      · rw [List.length_append, hbody]
        omega
      · rw [hbytes, hrest, List.append_assoc]
  | case5 i out s hge =>
      cases h
      refine ⟨[], (List.append_nil _).symm, ?_, rfl⟩
      rw [List.length_nil]
      omega

/-- **A known length is read exactly**: the body is the first `nbytes` bytes that arrive. -/
theorem readBodyKnownSrc_exact {nbytes : Nat} {body : Bytes} {s s' : IoSrc}
    (h : readBodyKnownSrc (fun _ _ => false) nbytes s = some (body, s')) :
    body.length = nbytes ∧ body <+: s.pfx ++ s.conn.bytes := by
  have hflat : readBodyKnown Stream.source fwriteAll nbytes [] s.stream = some (body, s'.stream) := by
    have hmap := readBodyKnown_map ioMap fwriteAll nbytes [] s
    rw [show readBodyKnown ioSource fwriteAll nbytes [] s = some (body, s') from h] at hmap
    exact hmap
  obtain ⟨rest, hbody, hlen, hbytes⟩ := readBlocks_exact (Nat.zero_le _) hflat
  rw [List.nil_append] at hbody
  rw [hbody]
  exact ⟨hlen, ⟨s'.stream.bytes, hbytes.symm⟩⟩

/-! ## The readers of the source -/

/-- The in-memory reader returns 0 with a body exactly where the file reader returns 0 having written it and
    it is within the limit, and returns -1 everywhere else. -/
def TwinsAt (file : IoSrc → Option (Bytes × IoSrc)) (mem : IoSrc → Option (MemBuf × IoSrc)) (s : IoSrc) : Prop :=
  (∀ body, (∃ buf s', mem s = some (buf, s') ∧ buf.d = body)
      ↔ (∃ s', file s = some (body, s')) ∧ body.length ≤ updateHttpFetchMax)
    ∧ ((¬ ∃ body s', file s = some (body, s') ∧ body.length ≤ updateHttpFetchMax) → mem s = none)

/-- Equal results, cut to the limit, are the relation between twins. -/
theorem twinsAt_of_eq {file : IoSrc → Option (Bytes × IoSrc)} {mem : IoSrc → Option (MemBuf × IoSrc)} {s : IoSrc}
    (h : inMemory (mem s) = within (file s)) : TwinsAt file mem s := by
  have hiff : ∀ body, (∃ buf s', mem s = some (buf, s') ∧ buf.d = body)
      ↔ (∃ s', file s = some (body, s')) ∧ body.length ≤ updateHttpFetchMax := by
    intro body
    constructor
    · rintro ⟨buf, s', hmem, rfl⟩
      rw [inMemory_eq_some hmem] at h
      obtain ⟨hfile, hle⟩ := eq_some_of_within h
      exact ⟨⟨s', hfile⟩, hle⟩
    · rintro ⟨⟨s', hfile⟩, hle⟩
      rw [hfile, within_some_of_le hle] at h
      obtain ⟨⟨buf, s₁⟩, hmem, hx⟩ := Option.map_eq_some_iff.mp h
      exact ⟨buf, s₁, hmem, congrArg Prod.fst hx⟩
  refine ⟨hiff, ?_⟩
  intro hno
  cases hmem : mem s with
  | none => rfl
  | some x =>
      obtain ⟨⟨s', hfile⟩, hle⟩ := (hiff x.1.d).mp ⟨x.1, x.2, hmem, rfl⟩
      exact absurd ⟨x.1.d, s', hfile, hle⟩ hno

/-- **The file and in-memory readers agree**, in each of the three framings, whatever arrives and in whatever
    pieces; with a known length both read exactly that much, from the front of the stream. -/
theorem bodyReaders_agree (s : IoSrc) :
    TwinsAt (readBodyChunkedSrc fun _ _ => false) (readBodyChunkedSrcMem fun _ => true) s
      ∧ (∀ nbytes, TwinsAt (readBodyKnownSrc (fun _ _ => false) nbytes)
          (readBodyKnownSrcMem (fun _ => true) nbytes) s)
      ∧ TwinsAt (readBodyUntilCloseSrc fun _ _ => false) (readBodyUntilCloseSrcMem fun _ => true) s
      ∧ (∀ nbytes body s', readBodyKnownSrc (fun _ _ => false) nbytes s = some (body, s') →
          body.length = nbytes ∧ body <+: s.pfx ++ s.conn.bytes)
      ∧ ∀ nbytes buf s', readBodyKnownSrcMem (fun _ => true) nbytes s = some (buf, s') →
          buf.d.length = nbytes ∧ buf.d <+: s.pfx ++ s.conn.bytes := by
  have hempty : MemBuf.empty.d.length ≤ updateHttpFetchMax := Nat.zero_le _
  have hknown : ∀ nbytes, TwinsAt (readBodyKnownSrc (fun _ _ => false) nbytes)
      (readBodyKnownSrcMem (fun _ => true) nbytes) s :=
    fun nbytes => twinsAt_of_eq (readBodyKnown_twins nbytes hempty)
  refine ⟨twinsAt_of_eq (readBodyChunked_twins hempty), hknown,
    twinsAt_of_eq (readBodyUntilClose_twins hempty), ?_, ?_⟩
  · intro nbytes body s' h
    exact readBodyKnownSrc_exact h
  · intro nbytes buf s' h
    obtain ⟨⟨s₁, hfile⟩, _⟩ := ((hknown nbytes).1 buf.d).mp ⟨buf, s', h, rfl⟩
    exact readBodyKnownSrc_exact hfile

end LibUpdate
