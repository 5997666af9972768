import LibUpdate.Foundation.Bytes
import LibUpdate.Foundation.Loop

/-!
# `Sha256.Model` — the streaming digest (`sha256.c`)

`uint32_t` and `uint64_t` are `UInt32` and `UInt64`; `size_t` counts of buffered bytes are `Nat`. A
`const void *data` with its `len` is the list of the bytes, so the null checks have nothing to refuse.
-/

namespace LibUpdate.Sha256

/-! ## `sha256_transform` -/

def rotr (x n : UInt32) : UInt32 := x >>> n ||| x <<< (32 - n)
def ch (x y z : UInt32) : UInt32 := (x &&& y) ^^^ (~~~x &&& z)
def maj (x y z : UInt32) : UInt32 := (x &&& y) ^^^ (x &&& z) ^^^ (y &&& z)
def bsig0 (x : UInt32) : UInt32 := rotr x 2 ^^^ rotr x 13 ^^^ rotr x 22
def bsig1 (x : UInt32) : UInt32 := rotr x 6 ^^^ rotr x 11 ^^^ rotr x 25
def ssig0 (x : UInt32) : UInt32 := rotr x 7 ^^^ rotr x 18 ^^^ x >>> 3
def ssig1 (x : UInt32) : UInt32 := rotr x 17 ^^^ rotr x 19 ^^^ x >>> 10

/-- The table `K`. -/
def k : Array UInt32 := #[
  0x428a2f98, 0x71374491, 0xb5c0fbcf, 0xe9b5dba5, 0x3956c25b, 0x59f111f1, 0x923f82a4, 0xab1c5ed5,
  0xd807aa98, 0x12835b01, 0x243185be, 0x550c7dc3, 0x72be5d74, 0x80deb1fe, 0x9bdc06a7, 0xc19bf174,
  0xe49b69c1, 0xefbe4786, 0x0fc19dc6, 0x240ca1cc, 0x2de92c6f, 0x4a7484aa, 0x5cb0a9dc, 0x76f988da,
  0x983e5152, 0xa831c66d, 0xb00327c8, 0xbf597fc7, 0xc6e00bf3, 0xd5a79147, 0x06ca6351, 0x14292967,
  0x27b70a85, 0x2e1b2138, 0x4d2c6dfc, 0x53380d13, 0x650a7354, 0x766a0abb, 0x81c2c92e, 0x92722c85,
  0xa2bfe8a1, 0xa81a664b, 0xc24b8b70, 0xc76c51a3, 0xd192e819, 0xd6990624, 0xf40e3585, 0x106aa070,
  0x19a4c116, 0x1e376c08, 0x2748774c, 0x34b0bcb5, 0x391c0cb3, 0x4ed8aa4a, 0x5b9cca4f, 0x682e6ff3,
  0x748f82ee, 0x78a5636f, 0x84c87814, 0x8cc70208, 0x90befffa, 0xa4506ceb, 0xbef9a3f7, 0xc67178f2]

/-- The first loop over `W`: a block's bytes, four to a word. -/
def loadWord (block : Bytes) (t : Nat) : UInt32 :=
  (block.getD (t * 4 + 0) 0).toUInt32 <<< 24 ||| (block.getD (t * 4 + 1) 0).toUInt32 <<< 16
    ||| (block.getD (t * 4 + 2) 0).toUInt32 <<< 8 ||| (block.getD (t * 4 + 3) 0).toUInt32

/-- A pass of the second loop, which fills `W[t]` for the next `t`. -/
def extendW (w : Array UInt32) (t : Nat) : Array UInt32 :=
  w.push (ssig1 w[t - 2]! + w[t - 7]! + ssig0 w[t - 15]! + w[t - 16]!)

def scheduleW (block : Bytes) : Array UInt32 :=
  (List.range' 16 48).foldl extendW ((List.range 16).map (loadWord block)).toArray

/-- The variables `a` to `h`. -/
structure Vars where
  a : UInt32
  b : UInt32
  c : UInt32
  d : UInt32
  e : UInt32
  f : UInt32
  g : UInt32
  h : UInt32
  deriving DecidableEq, Repr

/-- A pass of the loop over the 64 rounds. -/
def round (w : Array UInt32) (v : Vars) (t : Nat) : Vars :=
  let t1 := v.h + bsig1 v.e + ch v.e v.f v.g + k[t]! + w[t]!
  let t2 := bsig0 v.a + maj v.a v.b v.c
  { h := v.g, g := v.f, f := v.e, e := v.d + t1, d := v.c, c := v.b, b := v.a, a := t1 + t2 }

/-- `sha256_transform`: the new `state`. -/
def sha256Transform (state : Vector UInt32 8) (block : Bytes) : Vector UInt32 8 :=
  let v := (List.range 64).foldl (round (scheduleW block))
    ⟨state[0], state[1], state[2], state[3], state[4], state[5], state[6], state[7]⟩
  #v[state[0] + v.a, state[1] + v.b, state[2] + v.c, state[3] + v.d,
    state[4] + v.e, state[5] + v.f, state[6] + v.g, state[7] + v.h]

/-! ## The context -/

/-- `sha256_ctx`. The bytes of `buf` from `buflen` on are whatever was there before. -/
structure Sha256Ctx where
  nbit : UInt64
  h : Vector UInt32 8
  buf : Vector UInt8 64
  buflen : Nat
  deriving DecidableEq

/-- The words that `sha256_init` stores in `h`. -/
def initialH : Vector UInt32 8 :=
  #v[0x6a09e667, 0xbb67ae85, 0x3c6ef372, 0xa54ff53a, 0x510e527f, 0x9b05688c, 0x1f83d9ab, 0x5be0cd19]

/-- `sha256_init` leaves `buf` as it is. -/
def sha256Init (ctx : Sha256Ctx) : Sha256Ctx := { ctx with nbit := 0, buflen := 0, h := initialH }

/-- A pass of the loop in `sha256_update`, over the context and the bytes from `p` on. -/
def updatePass (s : Sha256Ctx × Bytes) : Round (Sha256Ctx × Bytes) Sha256Ctx :=
  let (ctx, p) := s
  if p.length > 0 then
    let space := 64 - ctx.buflen
    let n := if p.length < space then p.length else space
    let buf := memcpyAt ctx.buf ctx.buflen (p.take n)
    let buflen := ctx.buflen + n
    if buflen == 64 then
      .again ({ ctx with buf := buf, h := sha256Transform ctx.h buf.toList, buflen := 0 }, p.drop n)
    else .again ({ ctx with buf := buf, buflen := buflen }, p.drop n)
  else .leave ctx

/-- `sha256_update`. A full buffer would make the loop go round for ever, hence the fuel. -/
def sha256Update (fuel : Nat) (ctx : Sha256Ctx) (data : Bytes) : Option Sha256Ctx :=
  whileLoop (fun _ s => some (updatePass s)) fuel
    ({ ctx with nbit := ctx.nbit + UInt64.ofNat data.length * 8 }, data)

/-- One `sha256_update` for each chunk. -/
def sha256Updates (fuel : Nat) (ctx : Sha256Ctx) (chunks : List Bytes) : Option Sha256Ctx :=
  chunks.foldlM (sha256Update fuel) ctx

/-! ## `sha256_final` -/

/-- The loop that writes zeros up to the place of the length; `none` is the return at the end of
    `block`. -/
def writeZeros (block : Bytes) : Option Bytes :=
  if block.length % 64 ≠ 56 then
    if block.length ≥ 128 then none else writeZeros (block ++ [0])
  else some block
termination_by 128 - block.length
decreasing_by simp only [List.length_append, List.length_singleton]; omega

/-- The values of `s` in the loop that writes the length. -/
def lengthShifts : List UInt64 := [56, 48, 40, 32, 24, 16, 8, 0]

/-- The bytes of `block` that are hashed last; `none` where `sha256_final` returns early. -/
def finalBlock (ctx : Sha256Ctx) : Option Bytes :=
  match writeZeros (ctx.buf.toList.take ctx.buflen ++ [0x80]) with
  | none => none
  | some block =>
      if block.length + 8 > 128 then none
      else
        some (block ++ lengthShifts.map fun s => ((ctx.nbit >>> s) &&& 255).toUInt8)

/-- The loop over the blocks of `block`. -/
def transformBlocks (h : Vector UInt32 8) (block : Bytes) : Vector UInt32 8 :=
  (List.range (block.length / 64)).foldl (fun h i => sha256Transform h ((block.drop (64 * i)).take 64)) h

/-- The loop that writes `out`. -/
def digestBytes (h : Vector UInt32 8) : Bytes :=
  h.toList.flatMap fun (x : UInt32) =>
    [((x >>> 24) &&& 255).toUInt8, ((x >>> 16) &&& 255).toUInt8, ((x >>> 8) &&& 255).toUInt8,
      (x &&& 255).toUInt8]

/-- `sha256_final`: what `out` holds afterwards. -/
def sha256Final (ctx : Sha256Ctx) (out : Bytes) : Bytes :=
  match finalBlock ctx with
  | none => out
  | some block => digestBytes (transformBlocks ctx.h block)

end LibUpdate.Sha256
