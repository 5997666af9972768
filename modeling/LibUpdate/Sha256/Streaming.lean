import LibUpdate.Foundation.Blocks
import LibUpdate.Sha256.Standard
import LibUpdate.Sha256.Model

/-!
# `Sha256.Streaming` — the streaming digest is the digest of the standard

First the block function: what `sha256_transform` does to the eight words is the compression of the
standard. Then the stream: between two calls the context holds the hash value after the complete blocks,
and in its buffer what is left of the bytes (`Holds`). The calls keep that invariant, and `sha256_final`
pads what is left.
-/

namespace LibUpdate.Sha256

open Fips180 (Words Message)

/-! ## Words -/

/-- The words of `state` as the standard writes them. -/
def words (h : Vector UInt32 8) : Words :=
  let word (i : Nat) : Fips180.Word := (h.toList.getD i 0).toBitVec
  ⟨word 0, word 1, word 2, word 3, word 4, word 5, word 6, word 7⟩

def Vars.words (v : Vars) : Words :=
  ⟨v.a.toBitVec, v.b.toBitVec, v.c.toBitVec, v.d.toBitVec,
    v.e.toBitVec, v.f.toBitVec, v.g.toBitVec, v.h.toBitVec⟩

theorem ssig0_toBitVec (x : UInt32) : (ssig0 x).toBitVec = Fips180.smallSigma0 x.toBitVec := rfl
theorem ssig1_toBitVec (x : UInt32) : (ssig1 x).toBitVec = Fips180.smallSigma1 x.toBitVec := rfl

/-- The table holds the fractional parts of the cube roots of the first primes. -/
theorem k_eq_roundConstants : (k.map UInt32.toBitVec).toList = Fips180.roundConstants := by
  decide +kernel

/-- The initial words are the fractional parts of the square roots of the first primes. -/
theorem words_initialH : words initialH = Fips180.initialHash := by decide +kernel

theorem k_toBitVec {t : Nat} (ht : t < 64) : k[t]!.toBitVec = Fips180.roundConstant t := by
  have hsize : t < k.size := ht
  rw [Fips180.roundConstant, ← k_eq_roundConstants, getElem!_pos k t hsize]
  simp [List.getD_eq_getElem?_getD, hsize]

/-- Four bytes shifted into place are their concatenation. -/
theorem shifted_bytes_or (b0 b1 b2 b3 : BitVec 8) :
    b0.setWidth 32 <<< 24 ||| b1.setWidth 32 <<< 16 ||| b2.setWidth 32 <<< 8 ||| b3.setWidth 32
      = b0 ++ b1 ++ b2 ++ b3 := by
  apply BitVec.eq_of_getLsbD_eq
  intro i hi
  have hnone (b : BitVec 8) {n : Nat} (h : 8 ≤ n) : b.getLsbD n = false := BitVec.getLsbD_of_ge b n h
  simp only [BitVec.getLsbD_or, BitVec.getLsbD_shiftLeft, BitVec.getLsbD_setWidth,
    BitVec.getLsbD_append]
  simp only [Nat.sub_sub, Nat.reduceAdd]
  have hw (n : Nat) : i - n < 32 := by omega
  by_cases h₁ : i < 8
  · have h₂ : i < 16 := by omega
    have h₃ : i < 24 := by omega
    simp [h₁, h₂, h₃, hi]
  rw [hnone b3 (Nat.not_lt.mp h₁)]
  by_cases h₂ : i < 16
  · have h₃ : i < 24 := by omega
    have hb : i - 8 < 8 := by omega
    simp [h₁, h₂, h₃, hb, hw, hi]
  rw [hnone b2 (show 8 ≤ i - 8 by omega)]
  have hb : ¬ i - 8 < 8 := by omega
  by_cases h₃ : i < 24
  · have hb' : i - 16 < 8 := by omega
    simp [h₁, h₂, h₃, hb, hb', hw, hi]
  · have hb' : ¬ i - 16 < 8 := by omega
    simp [h₁, h₂, h₃, hb, hb', hw, hi, hnone b1 (Nat.not_lt.mp hb')]

theorem loadWord_toBitVec (block : Bytes) (t : Nat) :
    (loadWord block t).toBitVec = Fips180.blockWord block t := by
  rw [loadWord, Fips180.blockWord, Nat.mul_comm t 4]
  exact shifted_bytes_or _ _ _ _

/-- Masking a shifted word leaves one of its bytes. -/
theorem shifted_byte {w : Nat} (hw : 8 ≤ w) (x : BitVec w) (s : Nat) :
    (x >>> s &&& 255#w).setWidth 8 = x.extractLsb' s 8 := by
  have hand (n : Nat) : n &&& 255 = n % 256 := Nat.and_two_pow_sub_one_eq_mod n 8
  apply BitVec.eq_of_toNat_eq
  rw [BitVec.toNat_setWidth, BitVec.toNat_and, BitVec.toNat_ushiftRight, BitVec.toNat_ofNat,
    Nat.mod_eq_of_lt (Nat.lt_of_lt_of_le (by decide) (Nat.pow_le_pow_right (by decide) hw)),
    hand, BitVec.extractLsb'_toNat]
  exact Nat.mod_mod _ _

/-! ## The block function -/

/-- `W` after `n` passes of the second loop. -/
def filledW (block : Bytes) (n : Nat) : Array UInt32 :=
  (List.range' 16 n).foldl extendW ((List.range 16).map (loadWord block)).toArray

theorem filledW_succ (block : Bytes) (n : Nat) :
    filledW block (n + 1) = extendW (filledW block n) (16 + n) := by
  rw [filledW, List.range'_concat, List.foldl_append, Nat.one_mul]
  rfl

/-- `W` holds the message schedule as far as it is filled. -/
theorem filledW_spec (block : Bytes) (n : Nat) :
    (filledW block n).size = 16 + n
      ∧ ∀ t < 16 + n, (filledW block n)[t]!.toBitVec = Fips180.schedule (Fips180.blockWord block) t := by
  induction n with
  | zero =>
      refine ⟨by simp [filledW], ?_⟩
      intro t ht
      rw [Fips180.schedule, if_pos ht, ← loadWord_toBitVec]
      simp [filledW, ht]
  | succ n ih =>
      obtain ⟨hsize, hspec⟩ := ih
      rw [filledW_succ, extendW]
      refine ⟨by rw [Array.size_push, hsize]; rfl, ?_⟩
      intro t ht
      have hpush (x : UInt32) :
          ((filledW block n).push x)[t]! = if t < 16 + n then (filledW block n)[t]! else x := by
        rw [getElem!_pos _ t (by rw [Array.size_push]; omega), Array.getElem_push]
        by_cases hlast : t < 16 + n
        · rw [getElem!_pos _ t (by omega)]
          simp [hsize, hlast]
        · simp [hsize, hlast]
      rw [hpush]
      by_cases hlast : t < 16 + n
      · rw [if_pos hlast]
        exact hspec t hlast
      · obtain rfl : t = 16 + n := by omega
        -- the word that this pass appends is the recurrence over four earlier ones
        rw [if_neg hlast, Fips180.schedule, if_neg (by omega), ← hspec (16 + n - 2) (by omega),
          ← hspec (16 + n - 7) (by omega), ← hspec (16 + n - 15) (by omega), ← hspec (16 + n - 16) (by omega),
          ← ssig0_toBitVec, ← ssig1_toBitVec]
        rfl

/-- One round is one step of the standard. -/
theorem round_words (block : Bytes) (v : Vars) {t : Nat} (ht : t < 64) :
    (round (scheduleW block) v t).words
      = Fips180.step (Fips180.schedule (Fips180.blockWord block)) v.words t := by
  have hw := (filledW_spec block 48).2 t ht
  rw [Fips180.step, ← hw, ← k_toBitVec ht]
  rfl

theorem words_add_comm (x y : Words) : x.add y = y.add x := by
  simp [Words.add, BitVec.add_comm]

/-- **The block function.** `sha256_transform` is the compression of the standard. -/
theorem sha256Transform_words (h : Vector UInt32 8) (block : Bytes) :
    words (sha256Transform h block) = Fips180.compress (words h) block := by
  have hsum (v : Vars) :
      words #v[h[0] + v.a, h[1] + v.b, h[2] + v.c, h[3] + v.d, h[4] + v.e, h[5] + v.f, h[6] + v.g, h[7] + v.h]
        = (words h).add v.words := by
    simp [words, Words.add, Vars.words]
  have hrounds (v : Vars) : ((List.range 64).foldl (round (scheduleW block)) v).words
      = (List.range 64).foldl (Fips180.step (Fips180.schedule (Fips180.blockWord block))) v.words :=
    foldl_simulates Vars.words (fun v t ht => round_words block v (List.mem_range.mp ht)) v
  have hstart : (⟨h[0], h[1], h[2], h[3], h[4], h[5], h[6], h[7]⟩ : Vars).words = words h := by
    simp [words, Vars.words]
  rw [sha256Transform, hsum, hrounds, Fips180.compress, words_add_comm, hstart]

/-- The loop that writes `out` writes the bytes of the hash value. -/
theorem digestBytes_eq (h : Vector UInt32 8) : digestBytes h = (words h).bytes := by
  have hbytes (x : UInt32) :
      [((x >>> 24) &&& 255).toUInt8, ((x >>> 16) &&& 255).toUInt8, ((x >>> 8) &&& 255).toUInt8,
        (x &&& 255).toUInt8] = Fips180.bytesOf x.toBitVec := by
    have hbyte (s : Nat) : UInt8.ofBitVec ((x.toBitVec >>> s &&& 255#32).setWidth 8)
        = UInt8.ofBitVec (x.toBitVec.extractLsb' s 8) := by
      rw [shifted_byte (by decide)]
    show ([24, 16, 8, 0] : List Nat).map (fun s => UInt8.ofBitVec ((x.toBitVec >>> s &&& 255#32).setWidth 8))
      = [24, 16, 8, 0].map fun s => UInt8.ofBitVec (x.toBitVec.extractLsb' s 8)
    exact List.map_congr_left fun s _ => hbyte s
  have hlist : h.toList.map UInt32.toBitVec
      = [(words h).a, (words h).b, (words h).c, (words h).d, (words h).e, (words h).f, (words h).g,
        (words h).h] := by
    apply List.ext_getElem
    · simp
    · intro i hi _
      have hi : i < 8 := by simpa using hi
      rcases i with _ | _ | _ | _ | _ | _ | _ | _ | i
      case succ.succ.succ.succ.succ.succ.succ.succ => omega
      all_goals simp [words]
  rw [digestBytes, Words.bytes, ← hlist, List.flatMap_map]
  exact congrArg (List.flatMap · h.toList) (funext hbytes)

/-! ## The stream -/

/-- Between two calls the context holds the bytes `msg`: the words after the complete blocks, and the rest
    at the front of `buf`. -/
structure Holds (ctx : Sha256Ctx) (msg : Bytes) : Prop where
  buflen_lt : ctx.buflen < 64
  blocks : foldBlocks 64 sha256Transform initialH msg = (ctx.h, ctx.buf.toList.take ctx.buflen)

variable {ctx : Sha256Ctx} {msg : Bytes}

theorem length_take_buf (buf : Vector UInt8 64) {n : Nat} (hn : n ≤ 64) : (buf.toList.take n).length = n := by
  rw [List.length_take, Vector.length_toList]
  omega

theorem Holds.buflen_eq (h : Holds ctx msg) : ctx.buflen = msg.length % 64 := by
  have hrest := foldBlocks_rest_length (n := 64) (f := sha256Transform) (by decide) initialH msg
  rw [h.blocks, length_take_buf _ (Nat.le_of_lt h.buflen_lt)] at hrest
  exact hrest

theorem holds_init (ctx : Sha256Ctx) : Holds (sha256Init ctx) [] := by
  refine ⟨by show 0 < 64; decide, ?_⟩
  rw [foldBlocks_of_short _ (by decide)]
  rfl

/-- **A pass of the update loop** moves some bytes from the chunk into what the context holds. -/
theorem updatePass_holds (h : Holds ctx msg) {p : Bytes} (hp : p ≠ []) :
    ∃ n ctx', 0 < n ∧ updatePass (ctx, p) = .again (ctx', p.drop n) ∧ Holds ctx' (msg ++ p.take n)
      ∧ ctx'.nbit = ctx.nbit := by
  have hlt := h.buflen_lt
  have hpos : p.length > 0 := List.length_pos_iff.mpr hp
  obtain ⟨n, hn⟩ : ∃ n, n = if p.length < 64 - ctx.buflen then p.length else 64 - ctx.buflen := ⟨_, rfl⟩
  have hbounds : 0 < n ∧ n ≤ p.length ∧ ctx.buflen + n ≤ 64 := by split at hn <;> omega
  have htake : (p.take n).length = n := List.length_take_of_le hbounds.2.1
  have hcopy := take_memcpyAt ctx.buf ctx.buflen (p.take n) (by omega)
  rw [htake] at hcopy
  have hfold : foldBlocks 64 sha256Transform initialH (msg ++ p.take n)
      = foldBlocks 64 sha256Transform ctx.h
          ((memcpyAt ctx.buf ctx.buflen (p.take n)).toList.take (ctx.buflen + n)) := by
    rw [foldBlocks_pieces, h.blocks, hcopy]
  by_cases hfull : ctx.buflen + n = 64
  · -- the buffer is a complete block, and it is hashed
    refine ⟨n, { ctx with
      buf := memcpyAt ctx.buf ctx.buflen (p.take n)
      h := sha256Transform ctx.h (memcpyAt ctx.buf ctx.buflen (p.take n)).toList
      buflen := 0 }, hbounds.1, ?_, ⟨by show 0 < 64; decide, ?_⟩, rfl⟩
    · simp [updatePass, hpos, ← hn, hfull]
    · have hblock : (memcpyAt ctx.buf ctx.buflen (p.take n)).toList.length = 64 := Vector.length_toList
      have hall := foldBlocks_block (f := sha256Transform) (by decide) ctx.h hblock []
      rw [hfold, hfull, List.take_of_length_le (Nat.le_of_eq hblock), ← List.append_nil (Vector.toList _), hall,
        foldBlocks_of_short _ (by decide), List.append_nil]
      rfl
  · refine ⟨n, { ctx with
      buf := memcpyAt ctx.buf ctx.buflen (p.take n)
      buflen := ctx.buflen + n }, hbounds.1, ?_, ⟨by show ctx.buflen + n < 64; omega, ?_⟩, rfl⟩
    · simp [updatePass, hpos, ← hn, hfull]
    · rw [hfold, foldBlocks_of_short _ (by rw [length_take_buf _ hbounds.2.2]; omega)]

/-- **The update loop** ends with the chunk behind what the context held. -/
theorem updateLoop_holds (h : Holds ctx msg) {p : Bytes} {fuel : Nat} (hf : p.length < fuel) :
    ∃ ctx', iterate (fun s => some (updatePass s)) fuel (ctx, p) = some ctx' ∧ Holds ctx' (msg ++ p)
      ∧ ctx'.nbit = ctx.nbit := by
  induction fuel generalizing ctx msg p with
  | zero => exact absurd hf (Nat.not_lt_zero _)
  | succ fuel ih =>
      by_cases hp : p = []
      · subst hp
        refine ⟨ctx, iterate_leave (by simp [updatePass]) fuel, ?_, rfl⟩
        rwa [List.append_nil]
      · obtain ⟨n, ctx', hn, hpass, hholds, hnbit⟩ := updatePass_holds h hp
        have hshort : (p.drop n).length < fuel := by
          have := List.length_pos_iff.mpr hp
          rw [List.length_drop]
          omega
        obtain ⟨ctx'', hrun, hend, hnbit'⟩ := ih hholds hshort
        refine ⟨ctx'', ?_, ?_, hnbit'.trans hnbit⟩
        · rw [iterate_again (by rw [hpass]), hrun]
        · rwa [List.append_assoc, List.take_append_drop] at hend

/-- The context after the bytes `msg`, with their number of bits. -/
structure Absorbed (ctx : Sha256Ctx) (msg : Bytes) : Prop extends Holds ctx msg where
  nbit : ctx.nbit = UInt64.ofNat (8 * msg.length)

/-- **One `sha256_update`** takes the chunk in. -/
theorem sha256Update_absorbed (h : Absorbed ctx msg) {data : Bytes} {fuel : Nat} (hf : data.length < fuel) :
    ∃ ctx', sha256Update fuel ctx data = some ctx' ∧ Absorbed ctx' (msg ++ data) := by
  have hstart : Holds { ctx with nbit := ctx.nbit + UInt64.ofNat data.length * 8 } msg :=
    ⟨h.buflen_lt, h.blocks⟩
  obtain ⟨ctx', hrun, hholds, hnbit⟩ := updateLoop_holds hstart hf
  refine ⟨ctx', hrun, hholds, ?_⟩
  rw [hnbit, List.length_append, Nat.mul_add, UInt64.ofNat_add, Nat.mul_comm 8 data.length,
    UInt64.ofNat_mul data.length, ← h.nbit]
  rfl

theorem sha256Updates_absorbed (h : Absorbed ctx msg) (chunks : List Bytes) {fuel : Nat}
    (hf : chunks.flatten.length < fuel) :
    ∃ ctx', sha256Updates fuel ctx chunks = some ctx' ∧ Absorbed ctx' (msg ++ chunks.flatten) := by
  induction chunks generalizing ctx msg with
  | nil => exact ⟨ctx, rfl, by rwa [List.flatten_nil, List.append_nil]⟩
  | cons c chunks ih =>
      rw [List.flatten_cons, List.length_append] at hf
      have hc : c.length < fuel := by omega
      obtain ⟨ctx₁, hrun₁, h₁⟩ := sha256Update_absorbed h hc
      obtain ⟨ctx₂, hrun₂, h₂⟩ := ih h₁ (by omega)
      refine ⟨ctx₂, ?_, by rwa [List.flatten_cons, ← List.append_assoc]⟩
      rw [sha256Updates, List.foldlM_cons, hrun₁]
      exact hrun₂

/-! ## The end of the stream -/

/-- The loop over zeros stops at the place of the length, before the end of `block`. -/
theorem writeZeros_eq (block : Bytes) (h : block.length ≤ 120) :
    writeZeros block = some (block ++ List.replicate ((120 - block.length % 64) % 64) 0) := by
  fun_induction writeZeros block with
  | case1 block hne hfull => omega
  | case2 block hne hroom ih =>
      rw [List.length_append, List.length_singleton] at ih
      rw [ih (by omega), List.append_assoc]
      have hcount : (120 - block.length % 64) % 64 = (120 - (block.length + 1) % 64) % 64 + 1 := by omega
      rw [hcount, List.replicate_succ]
      rfl
  | case3 block heq =>
      have hzero : (120 - block.length % 64) % 64 = 0 := by omega
      rw [hzero, List.replicate_zero, List.append_nil]

/-- What follows the message in the last blocks. -/
def padding (m : Message) : Bytes :=
  0x80 :: (List.replicate ((119 - m.bytes.length % 64) % 64) 0 ++ Fips180.bytesOf m.bits)

/-- **The last blocks** are the rest of the message and the padding; no early return is taken. -/
theorem finalBlock_eq {m : Message} (h : Absorbed ctx m.bytes) :
    finalBlock ctx = some (ctx.buf.toList.take ctx.buflen ++ padding m) := by
  have hlt := h.buflen_lt
  have hlen : (ctx.buf.toList.take ctx.buflen ++ [(0x80 : UInt8)]).length = m.bytes.length % 64 + 1 := by
    rw [List.length_append, length_take_buf _ (by omega), h.toHolds.buflen_eq, List.length_singleton]
  have hzeros : (120 - (m.bytes.length % 64 + 1) % 64) % 64 = (119 - m.bytes.length % 64) % 64 := by omega
  have hlength : (lengthShifts.map fun s => ((ctx.nbit >>> s) &&& 255).toUInt8) = Fips180.bytesOf m.bits := by
    have hbits : m.bits = ctx.nbit.toBitVec := by
      have hshort := m.short
      rw [h.nbit]
      apply BitVec.eq_of_toNat_eq
      simp [Message.bits]
      omega
    have hbyte (s : Nat) : UInt8.ofBitVec ((ctx.nbit.toBitVec >>> s &&& 255#64).setWidth 8)
        = UInt8.ofBitVec (ctx.nbit.toBitVec.extractLsb' s 8) := by
      rw [shifted_byte (by decide)]
    rw [hbits]
    show ([56, 48, 40, 32, 24, 16, 8, 0] : List Nat).map
        (fun s => UInt8.ofBitVec ((ctx.nbit.toBitVec >>> s &&& 255#64).setWidth 8))
      = [56, 48, 40, 32, 24, 16, 8, 0].map fun s => UInt8.ofBitVec (ctx.nbit.toBitVec.extractLsb' s 8)
    exact List.map_congr_left fun s _ => hbyte s
  rw [finalBlock, writeZeros_eq _ (by omega), hlen, hzeros, hlength, padding]
  show (if _ then none else some _) = _
  rw [if_neg]
  · simp
  · rw [List.length_append, hlen, List.length_replicate]
    omega

theorem hashValue_eq (padded : Bytes) (i : Nat) :
    Fips180.hashValue padded i = stateAfter 64 Fips180.compress Fips180.initialHash padded i := by
  induction i with
  | zero => rfl
  | succ i ih => rw [Fips180.hashValue, stateAfter, ih]

/-- **The digest** of a context that has taken in a message. -/
theorem sha256Final_digest {m : Message} (h : Absorbed ctx m.bytes) (out : Bytes) :
    sha256Final ctx out = m.digest := by
  rw [sha256Final, finalBlock_eq h]
  show digestBytes (transformBlocks ctx.h _) = _
  rw [digestBytes_eq, Message.digest, transformBlocks, foldl_range_eq_stateAfter,
    ← foldBlocks_eq_stateAfter (by decide), hashValue_eq, ← words_initialH,
    ← stateAfter_simulates words sha256Transform_words, ← foldBlocks_eq_stateAfter (by decide)]
  -- the rest in front of the padding continues the blocks of the message
  have hpad : m.pad = m.bytes ++ padding m := rfl
  rw [hpad, foldBlocks_pieces initialH, h.blocks]

/-- `sha256_init`, one `sha256_update` for each chunk, `sha256_final`: what `out` holds. -/
def sha256 (fuel : Nat) (ctx : Sha256Ctx) (chunks : List Bytes) (out : Bytes) : Option Bytes :=
  (sha256Updates fuel (sha256Init ctx) chunks).map fun ctx => sha256Final ctx out

theorem absorbed_init (ctx : Sha256Ctx) : Absorbed (sha256Init ctx) [] := ⟨holds_init ctx, rfl⟩

/-- **Streaming SHA-256.** Whatever the chunks, and whatever was in the context and in `out` before:
    between the calls the buffer is never full, `sha256_final` does not return early, and `out` is the
    digest of the concatenation. -/
theorem sha256_streaming (ctx : Sha256Ctx) (chunks : List Bytes) (out : Bytes) (fuel : Nat)
    (hshort : chunks.flatten.length < 2305843009213693952) (hfuel : chunks.flatten.length < fuel) :
    (∀ pre, pre <+: chunks →
        ∃ c, sha256Updates fuel (sha256Init ctx) pre = some c ∧ c.buflen < 64 ∧ (finalBlock c).isSome)
      ∧ sha256 fuel ctx chunks out = some (Message.digest ⟨chunks.flatten, hshort⟩) := by
  constructor
  · rintro pre ⟨post, rfl⟩
    rw [List.flatten_append, List.length_append] at hshort hfuel
    have hpre : pre.flatten.length < fuel := by omega
    obtain ⟨c, hrun, habs⟩ := sha256Updates_absorbed (absorbed_init ctx) pre hpre
    rw [List.nil_append] at habs
    refine ⟨c, hrun, habs.buflen_lt, ?_⟩
    rw [finalBlock_eq (m := ⟨pre.flatten, by omega⟩) habs]
    rfl
  · obtain ⟨c, hrun, habs⟩ := sha256Updates_absorbed (absorbed_init ctx) chunks hfuel
    rw [List.nil_append] at habs
    rw [sha256, hrun, Option.map_some, sha256Final_digest (m := ⟨chunks.flatten, hshort⟩) habs]

/-- The digest of `abc` in three chunks. -/
theorem sha256_streaming_abc :
    sha256 4 ⟨7, .replicate 8 1, .replicate 64 0xff, 3⟩ [ascii "a", [], ascii "bc"] []
      = some (Message.digest ⟨ascii "abc", by decide⟩) :=
  (sha256_streaming ⟨7, .replicate 8 1, .replicate 64 0xff, 3⟩ [ascii "a", [], ascii "bc"] [] 4
    (by decide) (by decide)).2

example : sha256 4 ⟨7, .replicate 8 1, .replicate 64 0xff, 3⟩ [ascii "a", [], ascii "bc"] []
    = some [0xba, 0x78, 0x16, 0xbf, 0x8f, 0x01, 0xcf, 0xea, 0x41, 0x41, 0x40, 0xde, 0x5d, 0xae, 0x22, 0x23,
      0xb0, 0x03, 0x61, 0xa3, 0x96, 0x17, 0x7a, 0x9c, 0xb4, 0x10, 0xff, 0x61, 0xf2, 0x00, 0x15, 0xad] := by
  decide +kernel

end LibUpdate.Sha256
