import GraphSchema.Text.Hex

/-!
# SHA-256

The hash on lists of bytes. A message is padded to whole blocks of 64 bytes;
each block gives sixteen words, which are extended to 64, and each of these
mixes the eight words of the state once.
-/

namespace GraphSchema.Sha256

/-- The 64 round constants. -/
def roundConstants : List UInt32 :=
  [0x428a2f98, 0x71374491, 0xb5c0fbcf, 0xe9b5dba5, 0x3956c25b, 0x59f111f1, 0x923f82a4, 0xab1c5ed5,
   0xd807aa98, 0x12835b01, 0x243185be, 0x550c7dc3, 0x72be5d74, 0x80deb1fe, 0x9bdc06a7, 0xc19bf174,
   0xe49b69c1, 0xefbe4786, 0x0fc19dc6, 0x240ca1cc, 0x2de92c6f, 0x4a7484aa, 0x5cb0a9dc, 0x76f988da,
   0x983e5152, 0xa831c66d, 0xb00327c8, 0xbf597fc7, 0xc6e00bf3, 0xd5a79147, 0x06ca6351, 0x14292967,
   0x27b70a85, 0x2e1b2138, 0x4d2c6dfc, 0x53380d13, 0x650a7354, 0x766a0abb, 0x81c2c92e, 0x92722c85,
   0xa2bfe8a1, 0xa81a664b, 0xc24b8b70, 0xc76c51a3, 0xd192e819, 0xd6990624, 0xf40e3585, 0x106aa070,
   0x19a4c116, 0x1e376c08, 0x2748774c, 0x34b0bcb5, 0x391c0cb3, 0x4ed8aa4a, 0x5b9cca4f, 0x682e6ff3,
   0x748f82ee, 0x78a5636f, 0x84c87814, 0x8cc70208, 0x90befffa, 0xa4506ceb, 0xbef9a3f7, 0xc67178f2]

/-- The eight words of a state. -/
structure State where
  a : UInt32
  b : UInt32
  c : UInt32
  d : UInt32
  e : UInt32
  f : UInt32
  g : UInt32
  h : UInt32
deriving DecidableEq, Repr

/-- The state before the first block. -/
def initial : State :=
  ⟨0x6a09e667, 0xbb67ae85, 0x3c6ef372, 0xa54ff53a, 0x510e527f, 0x9b05688c, 0x1f83d9ab, 0x5be0cd19⟩

/-- The words of a state, first to last. -/
def State.words (s : State) : List UInt32 := [s.a, s.b, s.c, s.d, s.e, s.f, s.g, s.h]

/-- The word by word sum of two states. -/
def State.add (s t : State) : State :=
  ⟨s.a + t.a, s.b + t.b, s.c + t.c, s.d + t.d, s.e + t.e, s.f + t.f, s.g + t.g, s.h + t.h⟩

/-- The word with its bits moved to the right, those that fall out coming in at the left. -/
def rotateRight (x : UInt32) (n : UInt32) : UInt32 := (x >>> n) ||| (x <<< (32 - n))

/-- The bytes of a number, highest first, in a given count. -/
def bytesBigEndian (count n : Nat) : List UInt8 :=
  (List.range count).map fun i => UInt8.ofNat (n / Nat.pow 256 (count - 1 - i))

/-- The message with a single bit, zeros and its length in bits up to a whole block. -/
def pad (message : List UInt8) : List UInt8 :=
  let zeros := (119 - message.length % 64) % 64
  message ++ 0x80 :: List.replicate zeros 0 ++ bytesBigEndian 8 (8 * message.length)

/-- The words of a list of bytes, four bytes each, highest first. -/
def words : List UInt8 → List UInt32
  | a :: b :: c :: d :: r =>
      (a.toUInt32 <<< 24 ||| b.toUInt32 <<< 16 ||| c.toUInt32 <<< 8 ||| d.toUInt32) :: words r
  | _ => []

/-- The word that follows sixteen words in a schedule. -/
def nextWord (window : List UInt32) : UInt32 :=
  match window with
  | [w0, w1, _, _, _, _, _, _, _, w9, _, _, _, _, w14, _] =>
      let s0 := rotateRight w1 7 ^^^ rotateRight w1 18 ^^^ (w1 >>> 3)
      let s1 := rotateRight w14 17 ^^^ rotateRight w14 19 ^^^ (w14 >>> 10)
      w0 + s0 + w9 + s1
  | _ => 0

/-- The first words of the schedule that goes on from sixteen words. -/
def schedule : Nat → List UInt32 → List UInt32
  | 0, _ => []
  | n + 1, window => window.headD 0 :: schedule n (window.tail ++ [nextWord window])

/-- Mixes a word and its round constant into a state. -/
def round (s : State) (kw : UInt32 × UInt32) : State :=
  let s1 := rotateRight s.e 6 ^^^ rotateRight s.e 11 ^^^ rotateRight s.e 25
  let choice := (s.e &&& s.f) ^^^ ((~~~s.e) &&& s.g)
  let t1 := s.h + s1 + choice + kw.1 + kw.2
  let s0 := rotateRight s.a 2 ^^^ rotateRight s.a 13 ^^^ rotateRight s.a 22
  let majority := (s.a &&& s.b) ^^^ (s.a &&& s.c) ^^^ (s.b &&& s.c)
  ⟨t1 + (s0 + majority), s.a, s.b, s.c, s.d + t1, s.e, s.f, s.g⟩

/-- The state after a block of sixteen words. -/
def compress (s : State) (block : List UInt32) : State :=
  s.add ((roundConstants.zip (schedule 64 block)).foldl round s)

/-- The state after some blocks, sixteen words each. -/
def compressAll : Nat → State → List UInt32 → State
  | 0, s, _ => s
  | n + 1, s, ws => compressAll n (compress s (ws.take 16)) (ws.drop 16)

/-- The hash of a message, 32 bytes. -/
def hash (message : List UInt8) : List UInt8 :=
  let ws := words (pad message)
  (compressAll (ws.length / 16) initial ws).words.flatMap fun w => bytesBigEndian 4 w.toNat

/-- The hash of a message as lower-case hexadecimal digits. -/
def hexDigest (message : List UInt8) : String :=
  String.ofList <| (hash message).flatMap fun b =>
    [Text.hexDigit (b.toNat / 16), Text.hexDigit (b.toNat % 16)]

end GraphSchema.Sha256
