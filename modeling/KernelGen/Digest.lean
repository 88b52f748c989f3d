set_option autoImplicit false

/-!
# Digest: SHA-256

A generated file names the digest of the header it was made from, so that a reader can tell
whether the two still belong together.  The digest is SHA-256 of the bytes of the header,
written as 64 lower-case hexadecimal digits.

The message is padded to whole blocks of sixteen 32-bit words.  Each block is stretched to a
schedule of 64 words, and the schedule is mixed into the eight words of the running state.
-/

namespace KernelGen.Digest

/-- Arithmetic on words is modulo 2^32. -/
abbrev Word := UInt32

/-- The word turned right by `n` bits, for `n` from 1 to 31. -/
def rotateRight (x n : Word) : Word := (x >>> n) ||| (x <<< (32 - n))

/-! ## Constants -/

/-- The fractional parts of the cube roots of the first 64 primes. -/
def roundConstants : List Word :=
  [0x428a2f98, 0x71374491, 0xb5c0fbcf, 0xe9b5dba5, 0x3956c25b, 0x59f111f1, 0x923f82a4, 0xab1c5ed5,
   0xd807aa98, 0x12835b01, 0x243185be, 0x550c7dc3, 0x72be5d74, 0x80deb1fe, 0x9bdc06a7, 0xc19bf174,
   0xe49b69c1, 0xefbe4786, 0x0fc19dc6, 0x240ca1cc, 0x2de92c6f, 0x4a7484aa, 0x5cb0a9dc, 0x76f988da,
   0x983e5152, 0xa831c66d, 0xb00327c8, 0xbf597fc7, 0xc6e00bf3, 0xd5a79147, 0x06ca6351, 0x14292967,
   0x27b70a85, 0x2e1b2138, 0x4d2c6dfc, 0x53380d13, 0x650a7354, 0x766a0abb, 0x81c2c92e, 0x92722c85,
   0xa2bfe8a1, 0xa81a664b, 0xc24b8b70, 0xc76c51a3, 0xd192e819, 0xd6990624, 0xf40e3585, 0x106aa070,
   0x19a4c116, 0x1e376c08, 0x2748774c, 0x34b0bcb5, 0x391c0cb3, 0x4ed8aa4a, 0x5b9cca4f, 0x682e6ff3,
   0x748f82ee, 0x78a5636f, 0x84c87814, 0x8cc70208, 0x90befffa, 0xa4506ceb, 0xbef9a3f7, 0xc67178f2]

/-! ## The state -/

/-- The eight words that a block is mixed into. -/
structure State where
  a : Word
  b : Word
  c : Word
  d : Word
  e : Word
  f : Word
  g : Word
  h : Word
  deriving DecidableEq, Repr, Inhabited

namespace State

/-- The state before the first block: the fractional parts of the square roots of the first 8
primes. -/
def initial : State :=
  ⟨0x6a09e667, 0xbb67ae85, 0x3c6ef372, 0xa54ff53a, 0x510e527f, 0x9b05688c, 0x1f83d9ab, 0x5be0cd19⟩

/-- Word by word addition. -/
def add (s t : State) : State :=
  ⟨s.a + t.a, s.b + t.b, s.c + t.c, s.d + t.d, s.e + t.e, s.f + t.f, s.g + t.g, s.h + t.h⟩

/-- One round with a round constant and a word of the schedule. -/
def round (s : State) (constant word : Word) : State :=
  let sum1 := rotateRight s.e 6 ^^^ rotateRight s.e 11 ^^^ rotateRight s.e 25
  let choice := (s.e &&& s.f) ^^^ ((~~~ s.e) &&& s.g)
  let t1 := s.h + sum1 + choice + constant + word
  let sum0 := rotateRight s.a 2 ^^^ rotateRight s.a 13 ^^^ rotateRight s.a 22
  let majority := (s.a &&& s.b) ^^^ (s.a &&& s.c) ^^^ (s.b &&& s.c)
  ⟨t1 + (sum0 + majority), s.a, s.b, s.c, s.d + t1, s.e, s.f, s.g⟩

/-- The words of the state, in order. -/
def words (s : State) : List Word := [s.a, s.b, s.c, s.d, s.e, s.f, s.g, s.h]

end State

/-! ## Blocks -/

/-- A schedule with its next word, which is made of four earlier ones. -/
def extend (w : Array Word) : Array Word :=
  let back (n : Nat) : Word := w.getD (w.size - n) 0
  let small0 := rotateRight (back 15) 7 ^^^ rotateRight (back 15) 18 ^^^ (back 15 >>> 3)
  let small1 := rotateRight (back 2) 17 ^^^ rotateRight (back 2) 19 ^^^ (back 2 >>> 10)
  w.push (small1 + back 7 + small0 + back 16)

/-- The schedule of a block of sixteen words. -/
def schedule (block : List Word) : List Word :=
  (Nat.repeat extend 48 block.toArray).toList

/-- The state after one more block. -/
def mixBlock (s : State) (block : List Word) : State :=
  s.add ((roundConstants.zip (schedule block)).foldl (fun t kw => t.round kw.1 kw.2) s)

/-- The state after all blocks of sixteen words. -/
def mix (s : State) (ws : List Word) : State :=
  match ws with
  | [] => s
  | w :: r => mix (mixBlock s ((w :: r).take 16)) ((w :: r).drop 16)
termination_by ws.length
decreasing_by simp only [List.length_drop, List.length_cons]; omega

/-! ## The message -/

/-- The `count` low bytes of a number, the highest first. -/
def bigEndian : Nat → Nat → List UInt8
  | 0, _ => []
  | count + 1, n => UInt8.ofNat (n / 256 ^ count % 256) :: bigEndian count n

/-- A message followed by a one bit, by zero bits up to the last eight bytes of a block, and by
its length in bits. -/
def padded (message : List UInt8) : List UInt8 :=
  message ++ 0x80 :: List.replicate ((119 - message.length % 64) % 64) 0 ++
    bigEndian 8 (8 * message.length)

/-- Bytes as words, the highest byte first.  Bytes that do not fill a word are left out. -/
def wordsOf : List UInt8 → List Word
  | p :: q :: r :: s :: rest =>
    ((p.toUInt32 <<< 24) ||| (q.toUInt32 <<< 16) ||| (r.toUInt32 <<< 8) ||| s.toUInt32) ::
      wordsOf rest
  | _ => []

/-- The hexadecimal digits of a word, eight of them. -/
def hexDigits (w : Word) : List Char :=
  let digits := Nat.toDigits 16 w.toNat
  List.replicate (8 - digits.length) '0' ++ digits

/-- The SHA-256 digest of a message, in hexadecimal. -/
def sha256Hex (message : ByteArray) : String :=
  let final := mix .initial (wordsOf (padded message.data.toList))
  String.ofList (final.words.flatMap hexDigits)

end KernelGen.Digest
