import LibUpdate.Foundation.Bytes

/-!
# `Sha256.Standard` — the digest as FIPS 180-4 defines it

Nothing here comes from the code: words are strings of 32 bits, the constants are fractional parts of
roots of primes, the message schedule is a recursion on the index, a message is padded and then hashed
block by block. `Sha256.Streaming` compares the code with it.
-/

namespace LibUpdate.Fips180

abbrev Word := BitVec 32

/-! ## Functions on words -/

def choose (x y z : Word) : Word := (x &&& y) ^^^ (~~~x &&& z)
def majority (x y z : Word) : Word := (x &&& y) ^^^ (x &&& z) ^^^ (y &&& z)
def bigSigma0 (x : Word) : Word := x.rotateRight 2 ^^^ x.rotateRight 13 ^^^ x.rotateRight 22
def bigSigma1 (x : Word) : Word := x.rotateRight 6 ^^^ x.rotateRight 11 ^^^ x.rotateRight 25
def smallSigma0 (x : Word) : Word := x.rotateRight 7 ^^^ x.rotateRight 18 ^^^ x >>> 3
def smallSigma1 (x : Word) : Word := x.rotateRight 17 ^^^ x.rotateRight 19 ^^^ x >>> 10

/-! ## Constants -/

/-- The first sixty-four primes. -/
def primes : List Nat := (List.range' 2 310).filter fun p => (List.range' 2 (p - 2)).all (p % · != 0)

/-- The greatest number of at most `bits` bits more than those of `r` that satisfies a downward closed
    test, found bit by bit. -/
def greatest (test : Nat → Bool) : Nat → Nat → Nat
  | 0, r => r
  | bits + 1, r => greatest test bits (if test (r + 1 <<< bits) then r + 1 <<< bits else r)

/-- The first 32 bits of the fractional part of the square root of `p`. -/
def sqrtFraction (p : Nat) : Word := BitVec.ofNat 32 (greatest (fun r => r * r ≤ p <<< 64) 40 0)

/-- The first 32 bits of the fractional part of the cube root of `p`. -/
def cbrtFraction (p : Nat) : Word := BitVec.ofNat 32 (greatest (fun r => r * r * r ≤ p <<< 96) 40 0)

def roundConstants : List Word := primes.map cbrtFraction

def roundConstant (t : Nat) : Word := roundConstants.getD t 0

/-! ## The hash computation -/

/-- The eight words of a hash value, and of the working variables. -/
structure Words where
  a : Word
  b : Word
  c : Word
  d : Word
  e : Word
  f : Word
  g : Word
  h : Word
  deriving DecidableEq, Repr

def initialHash : Words :=
  let h (i : Nat) : Word := sqrtFraction (primes.getD i 0)
  ⟨h 0, h 1, h 2, h 3, h 4, h 5, h 6, h 7⟩

/-- The message schedule of a block whose words are `m`. -/
def schedule (m : Nat → Word) (t : Nat) : Word :=
  if t < 16 then m t
  else smallSigma1 (schedule m (t - 2)) + schedule m (t - 7) + smallSigma0 (schedule m (t - 15))
    + schedule m (t - 16)

/-- One of the 64 steps. -/
def step (w : Nat → Word) (v : Words) (t : Nat) : Words :=
  let t1 := v.h + bigSigma1 v.e + choose v.e v.f v.g + roundConstant t + w t
  let t2 := bigSigma0 v.a + majority v.a v.b v.c
  ⟨t1 + t2, v.a, v.b, v.c, v.d + t1, v.e, v.f, v.g⟩

def Words.add (x y : Words) : Words :=
  ⟨x.a + y.a, x.b + y.b, x.c + y.c, x.d + y.d, x.e + y.e, x.f + y.f, x.g + y.g, x.h + y.h⟩

/-- Word `t` of a block of bytes, most significant byte first. -/
def blockWord (block : Bytes) (t : Nat) : Word :=
  let byte (i : Nat) : BitVec 8 := (block.getD (4 * t + i) 0).toBitVec
  byte 0 ++ byte 1 ++ byte 2 ++ byte 3

/-- The hash value after a block. -/
def compress (hash : Words) (block : Bytes) : Words :=
  ((List.range 64).foldl (step (schedule (blockWord block))) hash).add hash

/-! ## Messages and digests -/

/-- A message of fewer than 2^64 bits, in bytes. -/
structure Message where
  bytes : Bytes
  short : bytes.length < 2305843009213693952

/-- The length in bits as 64 bits. -/
def Message.bits (m : Message) : BitVec 64 := BitVec.ofNatLT (8 * m.bytes.length) (by have := m.short; omega)

/-- The bytes of a string of `w` bits, `w` being a multiple of 8. -/
def bytesOf {w : Nat} (x : BitVec w) : Bytes :=
  (List.range (w / 8)).map fun i => UInt8.ofBitVec (x.extractLsb' (w - 8 - 8 * i) 8)

/-- The padded message: a one bit, the least number of zero bits that leaves 64 bits to the end of a
    block, and the length. -/
def Message.pad (m : Message) : Bytes :=
  m.bytes ++ 0x80 :: (List.replicate ((119 - m.bytes.length % 64) % 64) 0 ++ bytesOf m.bits)

/-- The hash value after `i` blocks of a padded message. -/
def hashValue (padded : Bytes) : Nat → Words
  | 0 => initialHash
  | i + 1 => compress (hashValue padded i) ((padded.drop (64 * i)).take 64)

def Words.bytes (x : Words) : Bytes := [x.a, x.b, x.c, x.d, x.e, x.f, x.g, x.h].flatMap bytesOf

/-- The message digest. -/
def Message.digest (m : Message) : Bytes := (hashValue m.pad (m.pad.length / 64)).bytes

end LibUpdate.Fips180
