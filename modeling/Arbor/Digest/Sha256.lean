import Arbor.Text.Quoted

/-!
# SHA-256

The SHA-256 digest of bytes, the keyed digest HMAC-SHA-256, and their hexadecimal texts.
-/

namespace Arbor.Sha256

/-- The chaining value: eight words. -/
structure State where
  a : UInt32
  b : UInt32
  c : UInt32
  d : UInt32
  e : UInt32
  f : UInt32
  g : UInt32
  h : UInt32

/-- The chaining value before the first block: the fractional parts of the square roots of the first
eight primes. -/
def State.initial : State :=
  ⟨0x6a09e667, 0xbb67ae85, 0x3c6ef372, 0xa54ff53a, 0x510e527f, 0x9b05688c, 0x1f83d9ab, 0x5be0cd19⟩

/-- The round constants: the fractional parts of the cube roots of the first 64 primes. -/
def roundConstants : List UInt32 :=
  [ 0x428a2f98, 0x71374491, 0xb5c0fbcf, 0xe9b5dba5, 0x3956c25b, 0x59f111f1, 0x923f82a4, 0xab1c5ed5,
    0xd807aa98, 0x12835b01, 0x243185be, 0x550c7dc3, 0x72be5d74, 0x80deb1fe, 0x9bdc06a7, 0xc19bf174,
    0xe49b69c1, 0xefbe4786, 0x0fc19dc6, 0x240ca1cc, 0x2de92c6f, 0x4a7484aa, 0x5cb0a9dc, 0x76f988da,
    0x983e5152, 0xa831c66d, 0xb00327c8, 0xbf597fc7, 0xc6e00bf3, 0xd5a79147, 0x06ca6351, 0x14292967,
    0x27b70a85, 0x2e1b2138, 0x4d2c6dfc, 0x53380d13, 0x650a7354, 0x766a0abb, 0x81c2c92e, 0x92722c85,
    0xa2bfe8a1, 0xa81a664b, 0xc24b8b70, 0xc76c51a3, 0xd192e819, 0xd6990624, 0xf40e3585, 0x106aa070,
    0x19a4c116, 0x1e376c08, 0x2748774c, 0x34b0bcb5, 0x391c0cb3, 0x4ed8aa4a, 0x5b9cca4f, 0x682e6ff3,
    0x748f82ee, 0x78a5636f, 0x84c87814, 0x8cc70208, 0x90befffa, 0xa4506ceb, 0xbef9a3f7, 0xc67178f2 ]

/-- The word turned to the right. -/
def rotate (x : UInt32) (n : UInt32) : UInt32 := (x >>> n) ||| (x <<< (32 - n))

/-- The word of four bytes, the most significant one first. -/
def wordOfBytes (a b c d : UInt8) : UInt32 :=
  (a.toUInt32 <<< 24) ||| (b.toUInt32 <<< 16) ||| (c.toUInt32 <<< 8) ||| d.toUInt32

/-- The words of a run of bytes. -/
def words : List UInt8 → List UInt32
  | a :: b :: c :: d :: rest => wordOfBytes a b c d :: words rest
  | _ => []

/-- The message schedule with as many more words as asked for, each made of earlier ones. -/
def extendSchedule : Nat → Array UInt32 → Array UInt32
  | 0, w => w
  | more + 1, w =>
    let back (n : Nat) : UInt32 := w.getD (w.size - n) 0
    let s0 := rotate (back 15) 7 ^^^ rotate (back 15) 18 ^^^ (back 15 >>> 3)
    let s1 := rotate (back 2) 17 ^^^ rotate (back 2) 19 ^^^ (back 2 >>> 10)
    extendSchedule more (w.push (back 16 + s0 + back 7 + s1))

/-- One round, with its constant and its word of the schedule. -/
def round (s : State) (constant word : UInt32) : State :=
  let s1 := rotate s.e 6 ^^^ rotate s.e 11 ^^^ rotate s.e 25
  let choice := (s.e &&& s.f) ^^^ ((~~~s.e) &&& s.g)
  let t1 := s.h + s1 + choice + constant + word
  let s0 := rotate s.a 2 ^^^ rotate s.a 13 ^^^ rotate s.a 22
  let majority := (s.a &&& s.b) ^^^ (s.a &&& s.c) ^^^ (s.b &&& s.c)
  ⟨t1 + (s0 + majority), s.a, s.b, s.c, s.d + t1, s.e, s.f, s.g⟩

/-- The chaining value after one more block of 64 bytes. -/
def compress (s : State) (block : List UInt8) : State :=
  let schedule := (extendSchedule 48 (words block).toArray).toList
  let t := (roundConstants.zip schedule).foldl (fun t (k, w) => round t k w) s
  ⟨s.a + t.a, s.b + t.b, s.c + t.c, s.d + t.d, s.e + t.e, s.f + t.f, s.g + t.g, s.h + t.h⟩

/-- The `count` low bytes of a number, the most significant one first. -/
def bytesOfNat : (count n : Nat) → List UInt8
  | 0, _ => []
  | count + 1, n => bytesOfNat count (n / 256) ++ [UInt8.ofNat n]

/-- The message with its padding: a one bit, zeros, and the length in bits; a multiple of 64 bytes. -/
def pad (message : List UInt8) : List UInt8 :=
  let zeros := (119 - message.length % 64) % 64
  message ++ 0x80 :: List.replicate zeros 0 ++ bytesOfNat 8 (8 * message.length)

/-- Compresses the given number of blocks, one after the other. -/
def compressBlocks : Nat → State → List UInt8 → State
  | 0, s, _ => s
  | count + 1, s, bytes => compressBlocks count (compress s (bytes.take 64)) (bytes.drop 64)

/-- The 32 bytes of the SHA-256 digest. -/
def digest (message : List UInt8) : List UInt8 :=
  let padded := pad message
  let s := compressBlocks (padded.length / 64) .initial padded
  [s.a, s.b, s.c, s.d, s.e, s.f, s.g, s.h].flatMap fun word => bytesOfNat 4 word.toNat

/-- The bytes of the UTF-8 encoding of a text. -/
def utf8 (text : String) : List UInt8 := text.toUTF8.toList

/-- Two lower-case hexadecimal digits for each byte. -/
def hex (bytes : List UInt8) : String :=
  String.ofList (bytes.flatMap fun b =>
    [Text.hexDigit (b.toNat / 16), Text.hexDigit (b.toNat % 16)])

/-- The digest of a text, in hexadecimal. -/
def hexDigest (text : String) : String := hex (digest (utf8 text))

/-- The key, brought to the length of a block: a longer one is replaced by its digest. -/
def blockKey (key : List UInt8) : List UInt8 :=
  let short := if key.length > 64 then digest key else key
  short ++ List.replicate (64 - short.length) 0

/-- HMAC-SHA-256 of a message under a key. -/
def hmac (key message : List UInt8) : List UInt8 :=
  let k := blockKey key
  digest (k.map (· ^^^ 0x5c) ++ digest (k.map (· ^^^ 0x36) ++ message))

/-- HMAC-SHA-256 of a text under a key that is a text, in hexadecimal. -/
def hexHmac (key text : String) : String := hex (hmac (utf8 key) (utf8 text))

end Arbor.Sha256
