import SealedStream.Words
/-!
# MD5

The message digest of RFC 1321. `Md5.digest` is the digest, of 16 octets; `Md5.pad` appends to a
message what fills its last block.
-/
namespace SealedStream.Md5

/-- The four words of a digest. -/
structure State where
  a : UInt32
  b : UInt32
  c : UInt32
  d : UInt32

def initial : State := ⟨0x67452301, 0xefcdab89, 0x98badcfe, 0x10325476⟩

/-- The constants of the 64 steps: the binary digits of the sine after the point. -/
def sines : Vector UInt32 64 := #v[
  0xd76aa478, 0xe8c7b756, 0x242070db, 0xc1bdceee, 0xf57c0faf, 0x4787c62a,
  0xa8304613, 0xfd469501, 0x698098d8, 0x8b44f7af, 0xffff5bb1, 0x895cd7be,
  0x6b901122, 0xfd987193, 0xa679438e, 0x49b40821, 0xf61e2562, 0xc040b340,
  0x265e5a51, 0xe9b6c7aa, 0xd62f105d, 0x02441453, 0xd8a1e681, 0xe7d3fbc8,
  0x21e1cde6, 0xc33707d6, 0xf4d50d87, 0x455a14ed, 0xa9e3e905, 0xfcefa3f8,
  0x676f02d9, 0x8d2a4c8a, 0xfffa3942, 0x8771f681, 0x6d9d6122, 0xfde5380c,
  0xa4beea44, 0x4bdecfa9, 0xf6bb4b60, 0xbebfbc70, 0x289b7ec6, 0xeaa127fa,
  0xd4ef3085, 0x04881d05, 0xd9d4d039, 0xe6db99e5, 0x1fa27cf8, 0xc4ac5665,
  0xf4292244, 0x432aff97, 0xab9423a7, 0xfc93a039, 0x655b59c3, 0x8f0ccc92,
  0xffeff47d, 0x85845dd1, 0x6fa87e4f, 0xfe2ce6e0, 0xa3014314, 0x4e0811a1,
  0xf7537e82, 0xbd3af235, 0x2ad7d2bb, 0xeb86d391]

/-- The rotations of the steps; each round repeats its four. -/
def rotation (i : Fin 64) : UInt32 :=
  let round : Vector UInt32 4 :=
    if i.val < 16 then #v[7, 12, 17, 22]
    else if i.val < 32 then #v[5, 9, 14, 20]
    else if i.val < 48 then #v[4, 11, 16, 23]
    else #v[6, 10, 15, 21]
  round[i.val % 4]

def wordIndex (i : Fin 64) : Fin 16 :=
  if i.val < 16 then Fin.ofNat 16 i.val
  else if i.val < 32 then Fin.ofNat 16 (5 * i.val + 1)
  else if i.val < 48 then Fin.ofNat 16 (3 * i.val + 5)
  else Fin.ofNat 16 (7 * i.val)

def mix (i : Fin 64) (b c d : UInt32) : UInt32 :=
  if i.val < 16 then (b &&& c) ||| (~~~b &&& d)
  else if i.val < 32 then (d &&& b) ||| (~~~d &&& c)
  else if i.val < 48 then b ^^^ c ^^^ d
  else c ^^^ (b ||| ~~~d)

def step (m : Vector UInt32 16) (s : State) (i : Fin 64) : State :=
  let f := mix i s.b s.c s.d + s.a + sines.get i + m.get (wordIndex i)
  ⟨s.d, s.b + rotl32 f (rotation i), s.b, s.c⟩

def compress (s : State) (block : Bytes) : State :=
  let r := (List.finRange 64).foldl (step (block.words32 16)) s
  ⟨s.a + r.a, s.b + r.b, s.c + r.c, s.d + r.d⟩

/-- A message, a one bit, zeros up to eight octets before the end of a block, and the length of
the message in bits. -/
def pad (message : Bytes) : Bytes :=
  let len := message.length
  message ++ 0x80 :: Bytes.zeros ((119 - len % 64) % 64) ++ Bytes.ofNatLE 8 (8 * len)

def digest (message : Bytes) : Bytes :=
  let s := ((pad message).pieces 64).foldl compress initial
  Bytes.ofWords32 [s.a, s.b, s.c, s.d]

@[simp] theorem length_digest (message : Bytes) : (digest message).length = 16 := by
  simp [digest]

end SealedStream.Md5
