import DocQuery.Text.Quoted

/-!
# DocQuery.Fingerprint.Md5 — the MD5 digest

The message is padded to whole blocks of 64 bytes, its length in bits at the end, and folded block
by block into four words.
-/

namespace DocQuery.Md5

/-- The state of the digest. -/
structure Words where
  a : UInt32
  b : UInt32
  c : UInt32
  d : UInt32

def Words.initial : Words := ⟨0x67452301, 0xefcdab89, 0x98badcfe, 0x10325476⟩

/-- The constants of the 64 rounds: the sines of 1, 2, … as fractions of `2 ^ 32`. -/
def sines : Array UInt32 := #[
  0xd76aa478, 0xe8c7b756, 0x242070db, 0xc1bdceee, 0xf57c0faf, 0x4787c62a,
  0xa8304613, 0xfd469501, 0x698098d8, 0x8b44f7af, 0xffff5bb1, 0x895cd7be,
  0x6b901122, 0xfd987193, 0xa679438e, 0x49b40821, 0xf61e2562, 0xc040b340,
  0x265e5a51, 0xe9b6c7aa, 0xd62f105d, 0x02441453, 0xd8a1e681, 0xe7d3fbc8,
  0x21e1cde6, 0xc33707d6, 0xf4d50d87, 0x455a14ed, 0xa9e3e905, 0xfcefa3f8,
  0x676f02d9, 0x8d2a4c8a, 0xfffa3942, 0x8771f681, 0x6d9d6122, 0xfde5380c,
  0xa4beea44, 0x4bdecfa9, 0xf6bb4b60, 0xbebfbc70, 0x289b7ec6, 0xeaa127fa,
  0xd4ef3085, 0x04881d05, 0xd9d4d039, 0xe6db99e5, 0x1fa27cf8, 0xc4ac5665,
  0xf4292244, 0x432aff97, 0xab9423a7, 0xfc93a039, 0x655b59c3, 0x8f0ccc92,
  0xffeff47d, 0x85845dd1, 0x6fa87e4f, 0xfe2ce6e0, 0xa3014314, 0x4e0811a1,
  0xf7537e82, 0xbd3af235, 0x2ad7d2bb, 0xeb86d391]

/-- The rotations of the four groups of sixteen rounds, each used in turn. -/
def rotations : Array (Array UInt32) := #[
  #[7, 12, 17, 22], #[5, 9, 14, 20], #[4, 11, 16, 23], #[6, 10, 15, 21]]

def rotateLeft (x n : UInt32) : UInt32 := (x <<< n) ||| (x >>> (32 - n))

/-- The mixing function of a round and the position of the word it takes. -/
def mix (w : Words) (i : Nat) : UInt32 × Nat :=
  match i / 16 with
  | 0 => ((w.b &&& w.c) ||| (~~~w.b &&& w.d), i)
  | 1 => ((w.d &&& w.b) ||| (~~~w.d &&& w.c), (5 * i + 1) % 16)
  | 2 => (w.b ^^^ w.c ^^^ w.d, (3 * i + 5) % 16)
  | _ => (w.c ^^^ (w.b ||| ~~~w.d), (7 * i) % 16)

def round (block : Array UInt32) (w : Words) (i : Nat) : Words :=
  let (f, g) := mix w i
  let sum := w.a + f + sines.getD i 0 + block.getD g 0
  let turn := (rotations.getD (i / 16) #[]).getD (i % 4) 0
  ⟨w.d, w.b + rotateLeft sum turn, w.b, w.c⟩

/-- Folds one block of sixteen words into the state. -/
def absorb (w : Words) (block : Array UInt32) : Words :=
  let r := (List.range 64).foldl (round block) w
  ⟨w.a + r.a, w.b + r.b, w.c + r.c, w.d + r.d⟩

/-- The lowest `width` bytes of a number, least significant first. -/
def littleEndian : Nat → Nat → List UInt8
  | 0, _ => []
  | width + 1, n => UInt8.ofNat n :: littleEndian width (n / 256)

/-- The message, a one bit, zeros up to 8 bytes short of a block, and the length in bits. -/
def padded (message : List UInt8) : List UInt8 :=
  let zeros := (119 - message.length % 64) % 64
  message ++ 0x80 :: (List.replicate zeros 0 ++ littleEndian 8 (8 * message.length))

/-- Words of four bytes each, least significant byte first. -/
def wordsOf : List UInt8 → List UInt32
  | p :: q :: r :: s :: rest =>
    (p.toUInt32 ||| (q.toUInt32 <<< 8) ||| (r.toUInt32 <<< 16) ||| (s.toUInt32 <<< 24))
      :: wordsOf rest
  | _ => []

/-- Folds words into the state, sixteen at a time; `fuel` is the number of blocks. -/
def absorbWords (w : Words) : Nat → List UInt32 → Words
  | 0, _ => w
  | fuel + 1, ws => absorbWords (absorb w (ws.take 16).toArray) fuel (ws.drop 16)

def digest (message : List UInt8) : List UInt8 :=
  let ws := wordsOf (padded message)
  let r := absorbWords .initial (ws.length / 16) ws
  [r.a, r.b, r.c, r.d].flatMap fun x => littleEndian 4 x.toNat

/-- The digest of a text in UTF-8, in hexadecimal. -/
def hex (s : String) : String :=
  String.ofList ((digest s.toUTF8.toList).flatMap fun b => Text.hexDigits 2 b.toNat)

end DocQuery.Md5
