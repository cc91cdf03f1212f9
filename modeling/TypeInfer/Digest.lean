/-
The SHA-256 digest of a text, in hexadecimal. It names stored trees: two files
share a name only if they agree in path and content, digests being taken as
distinct for distinct texts.
-/

namespace TypeInfer.Digest

/-- The first 32 bits of the fractional parts of the square roots of the first
eight primes. -/
def seed : List UInt32 :=
  [0x6a09e667, 0xbb67ae85, 0x3c6ef372, 0xa54ff53a, 0x510e527f, 0x9b05688c, 0x1f83d9ab, 0x5be0cd19]

/-- The first 32 bits of the fractional parts of the cube roots of the first 64
primes. -/
def roundConstants : List UInt32 :=
  [0x428a2f98, 0x71374491, 0xb5c0fbcf, 0xe9b5dba5, 0x3956c25b, 0x59f111f1, 0x923f82a4, 0xab1c5ed5,
    0xd807aa98, 0x12835b01, 0x243185be, 0x550c7dc3, 0x72be5d74, 0x80deb1fe, 0x9bdc06a7, 0xc19bf174,
    0xe49b69c1, 0xefbe4786, 0x0fc19dc6, 0x240ca1cc, 0x2de92c6f, 0x4a7484aa, 0x5cb0a9dc, 0x76f988da,
    0x983e5152, 0xa831c66d, 0xb00327c8, 0xbf597fc7, 0xc6e00bf3, 0xd5a79147, 0x06ca6351, 0x14292967,
    0x27b70a85, 0x2e1b2138, 0x4d2c6dfc, 0x53380d13, 0x650a7354, 0x766a0abb, 0x81c2c92e, 0x92722c85,
    0xa2bfe8a1, 0xa81a664b, 0xc24b8b70, 0xc76c51a3, 0xd192e819, 0xd6990624, 0xf40e3585, 0x106aa070,
    0x19a4c116, 0x1e376c08, 0x2748774c, 0x34b0bcb5, 0x391c0cb3, 0x4ed8aa4a, 0x5b9cca4f, 0x682e6ff3,
    0x748f82ee, 0x78a5636f, 0x84c87814, 0x8cc70208, 0x90befffa, 0xa4506ceb, 0xbef9a3f7, 0xc67178f2]

def rotateRight (x : UInt32) (n : UInt32) : UInt32 := (x >>> n) ||| (x <<< (32 - n))

/-- The bytes with a one bit, zeros and their length in bits after them. -/
def pad (bytes : List UInt8) : List UInt8 :=
  let n := bytes.length
  let zeros := (119 - n % 64) % 64
  bytes ++ (0x80 : UInt8) :: List.replicate zeros 0 ++
    (List.range 8).map fun i => UInt8.ofNat ((8 * n) >>> (8 * (7 - i)))

/-- The bytes as words, the most significant byte first. -/
def words : List UInt8 → List UInt32
  | a :: b :: c :: d :: rest =>
    ((a.toUInt32 <<< 24) ||| (b.toUInt32 <<< 16) ||| (c.toUInt32 <<< 8) ||| d.toUInt32) :: words rest
  | _ => []

/-- The word that follows the given ones, of which the last comes first. -/
def nextWord (last : List UInt32) : UInt32 :=
  let word (i : Nat) := last.getD i 0
  let s0 := let w := word 14; rotateRight w 7 ^^^ rotateRight w 18 ^^^ (w >>> 3)
  let s1 := let w := word 1; rotateRight w 17 ^^^ rotateRight w 19 ^^^ (w >>> 10)
  word 15 + s0 + word 6 + s1

/-- The 64 words of a block of 16. -/
def schedule (block : List UInt32) : List UInt32 :=
  ((List.range 48).foldl (fun last _ => nextWord last :: last) block.reverse).reverse

/-- One round on the eight working words. -/
def round (state : List UInt32) (step : UInt32 × UInt32) : List UInt32 :=
  match state with
  | [a, b, c, d, e, f, g, h] =>
    let s1 := rotateRight e 6 ^^^ rotateRight e 11 ^^^ rotateRight e 25
    let choice := (e &&& f) ^^^ (~~~e &&& g)
    let t1 := h + s1 + choice + step.1 + step.2
    let s0 := rotateRight a 2 ^^^ rotateRight a 13 ^^^ rotateRight a 22
    let majority := (a &&& b) ^^^ (a &&& c) ^^^ (b &&& c)
    [t1 + s0 + majority, a, b, c, d + t1, e, f, g]
  | _ => state

def compress (state block : List UInt32) : List UInt32 :=
  let mixed := (roundConstants.zip (schedule block)).foldl round state
  List.zipWith (· + ·) state mixed

def blocks (ws : List UInt32) : Nat → List (List UInt32)
  | 0 => []
  | n + 1 => ws.take 16 :: blocks (ws.drop 16) n

def hexByte (n : Nat) : List Char := [Nat.digitChar (n / 16 % 16), Nat.digitChar (n % 16)]

def hexWord (w : UInt32) : List Char :=
  let n := w.toNat
  hexByte (n >>> 24) ++ hexByte (n >>> 16) ++ hexByte (n >>> 8) ++ hexByte n

def ofBytes (bytes : List UInt8) : String :=
  let ws := words (pad bytes)
  let state := (blocks ws (ws.length / 16)).foldl compress seed
  String.ofList (state.flatMap hexWord)

def ofText (s : String) : String := ofBytes s.toUTF8.toList

end TypeInfer.Digest
