import MagiTrickle.Crypto.Digest

/-!
# MD5 (`crypto/md5.c`)
-/

namespace MagiTrickle.Crypto

/-- `K` of `md5.c`. -/
def md5K : List UInt32 :=
  [0xd76aa478, 0xe8c7b756, 0x242070db, 0xc1bdceee, 0xf57c0faf, 0x4787c62a, 0xa8304613, 0xfd469501,
   0x698098d8, 0x8b44f7af, 0xffff5bb1, 0x895cd7be, 0x6b901122, 0xfd987193, 0xa679438e, 0x49b40821,
   0xf61e2562, 0xc040b340, 0x265e5a51, 0xe9b6c7aa, 0xd62f105d, 0x02441453, 0xd8a1e681, 0xe7d3fbc8,
   0x21e1cde6, 0xc33707d6, 0xf4d50d87, 0x455a14ed, 0xa9e3e905, 0xfcefa3f8, 0x676f02d9, 0x8d2a4c8a,
   0xfffa3942, 0x8771f681, 0x6d9d6122, 0xfde5380c, 0xa4beea44, 0x4bdecfa9, 0xf6bb4b60, 0xbebfbc70,
   0x289b7ec6, 0xeaa127fa, 0xd4ef3085, 0x04881d05, 0xd9d4d039, 0xe6db99e5, 0x1fa27cf8, 0xc4ac5665,
   0xf4292244, 0x432aff97, 0xab9423a7, 0xfc93a039, 0x655b59c3, 0x8f0ccc92, 0xffeff47d, 0x85845dd1,
   0x6fa87e4f, 0xfe2ce6e0, 0xa3014314, 0x4e0811a1, 0xf7537e82, 0xbd3af235, 0x2ad7d2bb, 0xeb86d391]

/-- `S`. -/
def md5S : List UInt32 :=
  [7, 12, 17, 22, 7, 12, 17, 22, 7, 12, 17, 22, 7, 12, 17, 22,
   5, 9, 14, 20, 5, 9, 14, 20, 5, 9, 14, 20, 5, 9, 14, 20,
   4, 11, 16, 23, 4, 11, 16, 23, 4, 11, 16, 23, 4, 11, 16, 23,
   6, 10, 15, 21, 6, 10, 15, 21, 6, 10, 15, 21, 6, 10, 15, 21]

/-- `rotl32`. -/
def rotl32 (x n : UInt32) : UInt32 := (x <<< n) ||| (x >>> (32 - n))

/-- `state` of `mt_md5_ctx_t`. -/
structure State4 where
  a : UInt32
  b : UInt32
  c : UInt32
  d : UInt32
  deriving DecidableEq, Repr

/-- The words `m` of a block. -/
def md5Words (block : Bytes) : List UInt32 :=
  (List.range 16).map fun i =>
    (block.getD (i * 4) 0).toUInt32 ||| ((block.getD (i * 4 + 1) 0).toUInt32 <<< 8) |||
      ((block.getD (i * 4 + 2) 0).toUInt32 <<< 16) ||| ((block.getD (i * 4 + 3) 0).toUInt32 <<< 24)

/-- Turn `i` of the loop of `md5_block`. -/
def md5Round (m : List UInt32) (v : State4) (i : Nat) : State4 :=
  let (f, g) :=
    if i < 16 then ((v.b &&& v.c) ||| (~~~v.b &&& v.d), i)
    else if i < 32 then ((v.d &&& v.b) ||| (~~~v.d &&& v.c), (5 * i + 1) % 16)
    else if i < 48 then (v.b ^^^ v.c ^^^ v.d, (3 * i + 5) % 16)
    else (v.c ^^^ (v.b ||| ~~~v.d), (7 * i) % 16)
  ⟨v.d, v.b + rotl32 (v.a + f + md5K.getD i 0 + m.getD g 0) (md5S.getD i 0), v.b, v.c⟩

/-- `md5_block`. -/
def md5Block (state : State4) (block : Bytes) : State4 :=
  let v := (List.range 64).foldl (md5Round (md5Words block)) state
  ⟨state.a + v.a, state.b + v.b, state.c + v.c, state.d + v.d⟩

/-- `mt_md5_init`, `md5_block` and what `mt_md5_final` writes. -/
def md5Scheme : Scheme State4 where
  size := 64
  lenPos := 56
  init := ⟨0x67452301, 0xefcdab89, 0x98badcfe, 0x10325476⟩
  block := md5Block
  lenBytes := lenBytesLittle
  output state := [state.a, state.b, state.c, state.d].flatMap fun x : UInt32 =>
    [x.toUInt8, (x >>> 8).toUInt8, (x >>> 16).toUInt8, (x >>> 24).toUInt8]
  lenPos_lt := lenPos_lt_size
  length_lenBytes bits := by simp [lenBytesLittle]

end MagiTrickle.Crypto
