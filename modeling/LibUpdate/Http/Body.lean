import LibUpdate.Foundation.Numeral
import LibUpdate.Http.Source

/-!
# `Http.Body` — the body readers (`http_transport_socket.c`)

Every reader exists twice in the source, writing to a file (`_src`) and to memory (`_src_mem`), with the
same text but for the call that takes a block. Here each is one definition over the source of the bytes
and over that call, `put`; the two members of the family are its instances at `ioSource` and at `fwrite` or
`mem_append`. The progress callbacks observe and are left out.
-/

namespace LibUpdate

/-! ## Reading from any source -/

section Readers

variable {σ β : Type} (src : Source σ) (put : β → Bytes → Option β)

/-- The loop of `read_line_src`, with the line so far. -/
def readLineLoop (cap : Nat) (line : Bytes) (s : σ) : Option (Bytes × σ) :=
  if line.length + 1 < cap then
    match src.read s 1 with
    -- the line is read byte by byte, and an end of the data inside of it is a failure
    | some ([c], s) =>
        if [ch '\r', ch '\n'] <:+ line ++ [c] then some (line ++ [c], s)
        else readLineLoop cap (line ++ [c]) s
    | _ => none
  else none
termination_by cap - line.length
decreasing_by simp only [List.length_append, List.length_singleton]; omega

/-- `read_line_src` into `char line[96]`; `none` is -1. -/
def readLine (s : σ) : Option (Bytes × σ) := readLineLoop src 96 [] s

/-- The size of the next block where `rest` bytes are wanted. -/
def blockSize (rest : Nat) : Nat := if rest > 8192 then 8192 else rest

/-- A loop that takes `n` bytes, of which `i` are taken, in blocks of at most 8192. -/
def readBlocks (n i : Nat) (out : β) (s : σ) : Option (β × σ) :=
  if i < n then
    match src.read s (blockSize (n - i)) with
    | none => none
    -- an end of the data before `n` bytes
    | some ([], _) => none
    | some (b :: bs, s) =>
        match put out (b :: bs) with
        | none => none
        | some out => readBlocks n (i + (b :: bs).length) out s
  else some (out, s)
termination_by n - i
decreasing_by simp only [List.length_cons]; omega

theorem readLineLoop_left {cap : Nat} {line l : Bytes} {s s' : σ}
    (h : readLineLoop src cap line s = some (l, s')) :
    src.left s' + l.length = src.left s + line.length ∧ [ch '\r', ch '\n'] <:+ l ∧ l.length < cap := by
  fun_induction readLineLoop src cap line s with
  | case1 line s hlt c s₁ hread hend =>
      cases h
      have hleft := src.read_left hread
      simp only [List.length_append, List.length_singleton] at hleft ⊢
      exact ⟨by omega, hend, by omega⟩
  | case2 line s hlt c s₁ hread hend ih =>
      obtain ⟨hl, hrest⟩ := ih h
      have hleft := src.read_left hread
      simp only [List.length_append, List.length_singleton] at hleft hl
      exact ⟨by omega, hrest⟩
  | case3 => cases h
  | case4 => cases h

/-- A line that was read is taken off the source. -/
theorem readLine_left {s s' : σ} {l : Bytes} (h : readLine src s = some (l, s')) :
    src.left s' + l.length = src.left s ∧ 2 ≤ l.length := by
  obtain ⟨hleft, hend, _⟩ := readLineLoop_left src h
  exact ⟨by simpa using hleft, hend.length_le⟩

theorem readBlocks_left {n i : Nat} {out out' : β} {s s' : σ}
    (h : readBlocks src put n i out s = some (out', s')) : src.left s' ≤ src.left s := by
  fun_induction readBlocks src put n i out s with
  | case1 => cases h
  | case2 => cases h
  | case3 => cases h
  | case4 i out s hlt b bs s₁ hread out₁ hput ih =>
      have hleft := src.read_left hread
      have := ih h
      omega
  | case5 =>
      cases h
      exact Nat.le_refl _

/-- `read_body_chunked_src`. -/
def readBodyChunked (out : β) (s : σ) : Option (β × σ) :=
  match _hline : readLine src s with
  | none => none
  | some (line, s₁) =>
      -- the last chunk, and a line behind it; a line without a number is taken for one too
      if strtoull 16 line = 0 then
        match readLine src s₁ with
        | none => none
        | some (_, s₂) => some (out, s₂)
      else
        match _hdata : readBlocks src put (strtoull 16 line) 0 out s₁ with
        | none => none
        | some (out, s₂) =>
            -- the line end behind the data
            match _hterm : readLine src s₂ with
            | none => none
            | some (_, s₃) => readBodyChunked out s₃
termination_by src.left s
decreasing_by
  have h₁ := readLine_left src _hline
  have h₂ := readBlocks_left src put _hdata
  have h₃ := readLine_left src _hterm
  omega

/-- `read_body_known_src`. -/
def readBodyKnown (nbytes : Nat) (out : β) (s : σ) : Option (β × σ) := readBlocks src put nbytes 0 out s

/-- `read_body_until_close_src`. -/
def readBodyUntilClose (out : β) (s : σ) : Option (β × σ) :=
  match _hread : src.read s 8192 with
  | none => none
  | some ([], s) => some (out, s)
  | some (b :: bs, s₁) =>
      match put out (b :: bs) with
      | none => none
      | some out => readBodyUntilClose out s₁
termination_by src.left s
decreasing_by
  have := src.read_left _hread
  simp only [List.length_cons] at this
  omega

/-- One pass of the chunked reader. -/
theorem readBodyChunked_pass (out : β) (s : σ) :
    readBodyChunked src put out s = (readLine src s).bind fun x =>
      if strtoull 16 x.1 = 0 then (readLine src x.2).map fun y => (out, y.2)
      else (readBlocks src put (strtoull 16 x.1) 0 out x.2).bind fun y =>
        (readLine src y.2).bind fun z => readBodyChunked src put y.1 z.2 := by
  rw [readBodyChunked]
  split
  · next hline => rw [hline]; rfl
  · next line s₁ hline =>
    rw [hline, Option.bind_some]
    refine ite_congr rfl (fun _ => ?_) (fun _ => ?_)
    · split
      · next hend => rw [hend]; rfl
      · next hend => rw [hend]; rfl
    · split
      · next hdata => rw [hdata]; rfl
      · next hdata =>
        rw [hdata, Option.bind_some]
        split
        · next hterm => rw [hterm]; rfl
        · next hterm => rw [hterm]; rfl

/-- One pass of the reader until the end of the stream. -/
theorem readBodyUntilClose_pass (out : β) (s : σ) :
    readBodyUntilClose src put out s = (src.read s 8192).bind fun x =>
      if x.1 = [] then some (out, x.2)
      else (put out x.1).bind fun out => readBodyUntilClose src put out x.2 := by
  rw [readBodyUntilClose]
  split
  · next hread => rw [hread]; rfl
  · next hread => rw [hread]; rfl
  · next b bs s₁ hread =>
    rw [hread, Option.bind_some, if_neg (List.cons_ne_nil b bs)]
    split
    · next hput => rw [hput]; rfl
    · next hput => rw [hput]; rfl

/-! ## What every block keeps, a body keeps -/

section Keeps

variable {src put} (inv : β → Prop)
  (hput : ∀ {out bs out'}, put out bs = some out' → inv out → inv out')

include hput

theorem readBlocks_keeps {n i : Nat} {out out' : β} {s s' : σ} (hout : inv out)
    (h : readBlocks src put n i out s = some (out', s')) : inv out' := by
  fun_induction readBlocks src put n i out s with
  | case1 => cases h
  | case2 => cases h
  | case3 => cases h
  | case4 i out s hlt b bs s₁ hread out₁ hp ih => exact ih (hput hp hout) h
  | case5 =>
      cases h
      exact hout

/-- What every block that is taken leaves true is true at the end. -/
theorem readBodyChunked_keeps {out out' : β} {s s' : σ} (hout : inv out)
    (h : readBodyChunked src put out s = some (out', s')) : inv out' := by
  fun_induction readBodyChunked src put out s with
  | case1 => cases h
  | case2 => cases h
  | case3 =>
      cases h
      exact hout
  | case4 => cases h
  | case5 => cases h
  | case6 out s line s₁ hline hzero out₁ s₂ hdata term s₃ hterm ih =>
      exact ih (readBlocks_keeps inv hput hout hdata) h

theorem readBodyUntilClose_keeps {out out' : β} {s s' : σ} (hout : inv out)
    (h : readBodyUntilClose src put out s = some (out', s')) : inv out' := by
  fun_induction readBodyUntilClose src put out s with
  | case1 => cases h
  | case2 =>
      cases h
      exact hout
  | case3 => cases h
  | case4 out s b bs s₁ hread out₁ hp ih => exact ih (hput hp hout) h

end Keeps

/-! ## A destination that takes more -/

section More

variable {src put} {put' : β → Bytes → Option β}
  (hput : ∀ {out bs out'}, put out bs = some out' → put' out bs = some out')

include hput

theorem readBlocks_more {n i : Nat} {out : β} {s : σ} {x : β × σ} (h : readBlocks src put n i out s = some x) :
    readBlocks src put' n i out s = some x := by
  fun_induction readBlocks src put n i out s with
  | case1 => cases h
  | case2 => cases h
  | case3 => cases h
  | case4 i out s hlt b bs s₁ hread out₁ hp ih =>
      rw [readBlocks, if_pos hlt, hread]
      simp only [hput hp]
      exact ih h
  | case5 i out s hlt =>
      rw [readBlocks, if_neg hlt]
      exact h

/-- A body that one destination takes, a destination that takes more takes. -/
theorem readBodyChunked_more {out : β} {s : σ} {x : β × σ} (h : readBodyChunked src put out s = some x) :
    readBodyChunked src put' out s = some x := by
  fun_induction readBodyChunked src put out s with
  | case1 => cases h
  | case2 => cases h
  | case3 out s line s₁ hline hzero last s₂ hend =>
      rw [readBodyChunked_pass, hline, Option.bind_some, if_pos hzero, hend]
      exact h
  | case4 => cases h
  | case5 => cases h
  | case6 out s line s₁ hline hzero out₁ s₂ hdata term s₃ hterm ih =>
      rw [readBodyChunked_pass, hline, Option.bind_some, if_neg hzero, readBlocks_more hput hdata, Option.bind_some,
        hterm, Option.bind_some]
      exact ih h

theorem readBodyUntilClose_more {out : β} {s : σ} {x : β × σ} (h : readBodyUntilClose src put out s = some x) :
    readBodyUntilClose src put' out s = some x := by
  fun_induction readBodyUntilClose src put out s with
  | case1 => cases h
  | case2 out s s₁ hread =>
      rw [readBodyUntilClose_pass, hread]
      exact h
  | case3 => cases h
  | case4 out s b bs s₁ hread out₁ hp ih =>
      rw [readBodyUntilClose_pass, hread, Option.bind_some, if_neg (List.cons_ne_nil b bs), hput hp, Option.bind_some]
      exact ih h

end More

end Readers

/-! ## The readers cannot tell sources apart -/

section Maps

variable {σ τ β : Type} {p : Source σ} {q : Source τ} (m : SourceMap p q) (put : β → Bytes → Option β)

theorem readLineLoop_map (cap : Nat) (line : Bytes) (s : σ) :
    readLineLoop q cap line (m.map s) = carry m.map (readLineLoop p cap line s) := by
  fun_induction readLineLoop p cap line s with
  | case1 line s hlt c s₁ hread hend =>
      rw [readLineLoop, if_pos hlt, m.read_map, hread]
      simp [hend]
  | case2 line s hlt c s₁ hread hend ih =>
      rw [readLineLoop, if_pos hlt, m.read_map, hread]
      simp [hend, ih]
  | case3 line s hlt hread =>
      rw [readLineLoop, if_pos hlt, m.read_map]
      cases hr : p.read s 1 with
      | none => rfl
      | some x =>
          obtain ⟨bs, s₁⟩ := x
          match bs, hread with
          | [], _ => rfl
          | [c], hread => exact absurd hr (hread c s₁)
          | _ :: _ :: _, _ => rfl
  | case4 line s hlt =>
      rw [readLineLoop, if_neg hlt]
      rfl

theorem readLine_map (s : σ) : readLine q (m.map s) = carry m.map (readLine p s) :=
  readLineLoop_map m 96 [] s

theorem readBlocks_map (n i : Nat) (out : β) (s : σ) :
    readBlocks q put n i out (m.map s) = carry m.map (readBlocks p put n i out s) := by
  fun_induction readBlocks p put n i out s with
  | case1 i out s hlt hread =>
      rw [readBlocks, if_pos hlt, m.read_map, hread]
      rfl
  | case2 i out s hlt s₁ hread =>
      rw [readBlocks, if_pos hlt, m.read_map, hread]
      rfl
  | case3 i out s hlt b bs s₁ hread hput =>
      rw [readBlocks, if_pos hlt, m.read_map, hread]
      simp [hput]
  | case4 i out s hlt b bs s₁ hread out₁ hput ih =>
      rw [readBlocks, if_pos hlt, m.read_map, hread]
      simp only [carry_some, hput]
      exact ih
  | case5 i out s hlt =>
      rw [readBlocks, if_neg hlt]
      rfl

/-- **The chunked reader** gives the same body over both sources. -/
theorem readBodyChunked_map (out : β) (s : σ) :
    readBodyChunked q put out (m.map s) = carry m.map (readBodyChunked p put out s) := by
  fun_induction readBodyChunked p put out s with
  | case1 out s hline =>
      rw [readBodyChunked_pass, readLine_map, hline]
      rfl
  | case2 out s line s₁ hline hzero hend =>
      rw [readBodyChunked_pass, readLine_map, hline]
      simp [hzero, readLine_map, hend]
  | case3 out s line s₁ hline hzero _ s₂ hend =>
      rw [readBodyChunked_pass, readLine_map, hline]
      simp [hzero, readLine_map, hend]
  | case4 out s line s₁ hline hzero hdata =>
      rw [readBodyChunked_pass, readLine_map, hline]
      simp [hzero, readBlocks_map, hdata]
  | case5 out s line s₁ hline hzero out₁ s₂ hdata hterm =>
      rw [readBodyChunked_pass, readLine_map, hline]
      simp [hzero, readBlocks_map, hdata, readLine_map, hterm]
  | case6 out s line s₁ hline hzero out₁ s₂ hdata _ s₃ hterm ih =>
      rw [readBodyChunked_pass, readLine_map, hline]
      simp [hzero, readBlocks_map, hdata, readLine_map, hterm, ih]

/-- **The known-length reader** gives the same body over both sources. -/
theorem readBodyKnown_map (nbytes : Nat) (out : β) (s : σ) :
    readBodyKnown q put nbytes out (m.map s) = carry m.map (readBodyKnown p put nbytes out s) :=
  readBlocks_map m put nbytes 0 out s

/-- **The reader until the end of the stream** gives the same body over both sources. -/
theorem readBodyUntilClose_map (out : β) (s : σ) :
    readBodyUntilClose q put out (m.map s) = carry m.map (readBodyUntilClose p put out s) := by
  fun_induction readBodyUntilClose p put out s with
  | case1 out s hread =>
      rw [readBodyUntilClose_pass, m.read_map, hread]
      rfl
  | case2 out s s₁ hread =>
      rw [readBodyUntilClose_pass, m.read_map, hread]
      rfl
  | case3 out s b bs s₁ hread hput =>
      rw [readBodyUntilClose_pass, m.read_map, hread]
      simp [hput]
  | case4 out s b bs s₁ hread out₁ hput ih =>
      rw [readBodyUntilClose_pass, m.read_map, hread]
      simp [hput, ih]

end Maps

/-! ## The readers of the source -/

/-- `fwrite` to the output file: the environment decides which writes fail. -/
def fwrite (fails : Bytes → Bytes → Bool) (out bs : Bytes) : Option Bytes :=
  if fails out bs then none else some (out ++ bs)

/-- The buffer that `append_grow` keeps, without the NUL behind the text. -/
structure MemBuf where
  d : Bytes
  cap : Nat
  deriving DecidableEq, Repr

/-- The buffer before the first append, where the pointer is `NULL`. -/
def MemBuf.empty : MemBuf := ⟨[], 0⟩

/-- The doubling loop of `append_grow`; the capacity it starts from is at least 4096. -/
def doubleCap (need ncap : Nat) : Nat :=
  if ncap < need ∧ 0 < ncap then doubleCap need (ncap * 2) else ncap
termination_by need - ncap

/-- The capacity that `append_grow` asks for. -/
def grownCap (need cap : Nat) : Nat := doubleCap need (if cap = 0 then 4096 else cap * 2)

/-- `append_grow`; `alloc n` says whether `realloc` gives `n` bytes. -/
def appendGrow (alloc : Nat → Bool) (buf : MemBuf) (chunk : Bytes) : Option MemBuf :=
  let need := buf.d.length + chunk.length + 1
  if need > buf.cap then
    if alloc (grownCap need buf.cap) then some ⟨buf.d ++ chunk, grownCap need buf.cap⟩ else none
  else some { buf with d := buf.d ++ chunk }

theorem appendGrow_d {alloc : Nat → Bool} {buf buf' : MemBuf} {chunk : Bytes}
    (h : appendGrow alloc buf chunk = some buf') : buf'.d = buf.d ++ chunk := by
  unfold appendGrow at h
  dsimp only at h
  split at h
  · split at h
    · cases h
      rfl
    · cases h
  · cases h
    rfl

theorem appendGrow_enough (buf : MemBuf) (chunk : Bytes) :
    ∃ buf', appendGrow (fun _ => true) buf chunk = some buf' := by
  unfold appendGrow
  dsimp only
  split
  · exact ⟨_, rfl⟩
  · exact ⟨_, rfl⟩

/-- Where memory is given, more memory gives the same buffer. -/
theorem appendGrow_memory {alloc : Nat → Bool} {buf buf' : MemBuf} {chunk : Bytes}
    (h : appendGrow alloc buf chunk = some buf') : appendGrow memory buf chunk = some buf' := by
  unfold appendGrow at h ⊢
  dsimp only at h ⊢
  split at h
  · next hneed =>
    split at h
    · rw [if_pos hneed]
      exact h
    · cases h
  · next hneed =>
    rw [if_neg hneed]
    exact h

/-- `UPDATE_HTTP_FETCH_MAX`. -/
def updateHttpFetchMax : Nat := 512 * 1024

/-- `mem_append`. -/
def memAppend (alloc : Nat → Bool) (buf : MemBuf) (chunk : Bytes) : Option MemBuf :=
  match appendGrow alloc buf chunk with
  | none => none
  | some buf => if buf.d.length > updateHttpFetchMax then none else some buf

theorem fwrite_appends (fails : Bytes → Bytes → Bool) {out bs out' : Bytes}
    (h : fwrite fails out bs = some out') : out' = out ++ bs := by
  unfold fwrite at h
  split at h
  · cases h
  · exact (Option.some.inj h).symm

/-- A file that refuses no write takes what any file takes. -/
theorem fwrite_more {fails : Bytes → Bytes → Bool} {out bs out' : Bytes} (h : fwrite fails out bs = some out') :
    fwrite (fun _ _ => false) out bs = some out' := by
  rw [fwrite_appends fails h]
  rfl

theorem memAppend_eq_some {alloc : Nat → Bool} {buf buf' : MemBuf} {bs : Bytes} :
    memAppend alloc buf bs = some buf'
      ↔ appendGrow alloc buf bs = some buf' ∧ buf'.d.length ≤ updateHttpFetchMax := by
  unfold memAppend
  cases appendGrow alloc buf bs with
  | none => simp
  | some b =>
      by_cases hlen : b.d.length > updateHttpFetchMax
      · simp only [if_pos hlen]
        constructor
        · intro h
          cases h
        · rintro ⟨h, hle⟩
          cases h
          omega
      · simp only [if_neg hlen]
        constructor
        · intro h
          cases h
          exact ⟨rfl, by omega⟩
        · rintro ⟨h, _⟩
          exact h

/-- `read_body_chunked_src` into an empty file. -/
def readBodyChunkedSrc (fails : Bytes → Bytes → Bool) (s : IoSrc) : Option (Bytes × IoSrc) :=
  readBodyChunked ioSource (fwrite fails) [] s

/-- `read_body_known_src` into an empty file. -/
def readBodyKnownSrc (fails : Bytes → Bytes → Bool) (nbytes : Nat) (s : IoSrc) : Option (Bytes × IoSrc) :=
  readBodyKnown ioSource (fwrite fails) nbytes [] s

/-- `read_body_until_close_src` into an empty file. -/
def readBodyUntilCloseSrc (fails : Bytes → Bytes → Bool) (s : IoSrc) : Option (Bytes × IoSrc) :=
  readBodyUntilClose ioSource (fwrite fails) [] s

/-- `read_body_chunked_src_mem`. -/
def readBodyChunkedSrcMem (alloc : Nat → Bool) (s : IoSrc) : Option (MemBuf × IoSrc) :=
  readBodyChunked ioSource (memAppend alloc) .empty s

/-- `read_body_known_src_mem`. -/
def readBodyKnownSrcMem (alloc : Nat → Bool) (nbytes : Nat) (s : IoSrc) : Option (MemBuf × IoSrc) :=
  readBodyKnown ioSource (memAppend alloc) nbytes .empty s

/-- `read_body_until_close_src_mem`. -/
def readBodyUntilCloseSrcMem (alloc : Nat → Bool) (s : IoSrc) : Option (MemBuf × IoSrc) :=
  readBodyUntilClose ioSource (memAppend alloc) .empty s

end LibUpdate
