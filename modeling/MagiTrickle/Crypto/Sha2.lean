import MagiTrickle.Crypto.Digest

/-!
# SHA-256 and SHA-512 (`crypto/sha256.c`, `crypto/sha512.c`)

The two block functions are `block` at words of 32 and 64 bits.
-/

namespace MagiTrickle.Crypto

open Lib.Blocks

/-! ## The block function -/

/-- `state` of the contexts. -/
structure State8 (ω : Type) where
  a : ω
  b : ω
  c : ω
  d : ω
  e : ω
  f : ω
  g : ω
  h : ω
  deriving DecidableEq, Repr

def State8.toList {ω : Type} (v : State8 ω) : List ω := [v.a, v.b, v.c, v.d, v.e, v.f, v.g, v.h]

/-- What the two block functions differ in. -/
structure Sha2 (ω : Type) where
  /-- `K`. -/
  k : List ω
  /-- The words of a block. -/
  words : Bytes → List ω
  s0 : ω → ω
  s1 : ω → ω
  S0 : ω → ω
  S1 : ω → ω

namespace Sha2

variable {ω : Type} [Inhabited ω] [Add ω] [XorOp ω] [AndOp ω] [Complement ω] (p : Sha2 ω)

/-- The words `w` of a block. -/
def schedule (block : Bytes) : List ω :=
  (List.range' 16 (p.k.length - 16)).foldl
    (fun w i =>
      let s0 := p.s0 (w.getD (i - 15) default)
      let s1 := p.s1 (w.getD (i - 2) default)
      w ++ [w.getD (i - 16) default + s0 + w.getD (i - 7) default + s1])
    (p.words block)

def round (v : State8 ω) (k w : ω) : State8 ω :=
  let S1 := p.S1 v.e
  let ch := (v.e &&& v.f) ^^^ (~~~v.e &&& v.g)
  let temp1 := v.h + S1 + ch + k + w
  let S0 := p.S0 v.a
  let maj := (v.a &&& v.b) ^^^ (v.a &&& v.c) ^^^ (v.b &&& v.c)
  let temp2 := S0 + maj
  ⟨temp1 + temp2, v.a, v.b, v.c, v.d + temp1, v.e, v.f, v.g⟩

/-- `sha256_block` and `sha512_block`. -/
def block (state : State8 ω) (block : Bytes) : State8 ω :=
  let v := (p.k.zip (p.schedule block)).foldl (fun v kw => p.round v kw.1 kw.2) state
  ⟨state.a + v.a, state.b + v.b, state.c + v.c, state.d + v.d, state.e + v.e, state.f + v.f,
    state.g + v.g, state.h + v.h⟩

end Sha2

/-! ## SHA-256 -/

/-- `rotr32`. -/
def rotr32 (x n : UInt32) : UInt32 := (x >>> n) ||| (x <<< (32 - n))

/-- `K` of `sha256.c`. -/
def sha256K : List UInt32 :=
  [0x428a2f98, 0x71374491, 0xb5c0fbcf, 0xe9b5dba5, 0x3956c25b, 0x59f111f1, 0x923f82a4, 0xab1c5ed5,
   0xd807aa98, 0x12835b01, 0x243185be, 0x550c7dc3, 0x72be5d74, 0x80deb1fe, 0x9bdc06a7, 0xc19bf174,
   0xe49b69c1, 0xefbe4786, 0x0fc19dc6, 0x240ca1cc, 0x2de92c6f, 0x4a7484aa, 0x5cb0a9dc, 0x76f988da,
   0x983e5152, 0xa831c66d, 0xb00327c8, 0xbf597fc7, 0xc6e00bf3, 0xd5a79147, 0x06ca6351, 0x14292967,
   0x27b70a85, 0x2e1b2138, 0x4d2c6dfc, 0x53380d13, 0x650a7354, 0x766a0abb, 0x81c2c92e, 0x92722c85,
   0xa2bfe8a1, 0xa81a664b, 0xc24b8b70, 0xc76c51a3, 0xd192e819, 0xd6990624, 0xf40e3585, 0x106aa070,
   0x19a4c116, 0x1e376c08, 0x2748774c, 0x34b0bcb5, 0x391c0cb3, 0x4ed8aa4a, 0x5b9cca4f, 0x682e6ff3,
   0x748f82ee, 0x78a5636f, 0x84c87814, 0x8cc70208, 0x90befffa, 0xa4506ceb, 0xbef9a3f7, 0xc67178f2]

def sha256 : Sha2 UInt32 where
  k := sha256K
  words block := (List.range 16).map fun i =>
    ((block.getD (i * 4) 0).toUInt32 <<< 24) ||| ((block.getD (i * 4 + 1) 0).toUInt32 <<< 16) |||
      ((block.getD (i * 4 + 2) 0).toUInt32 <<< 8) ||| (block.getD (i * 4 + 3) 0).toUInt32
  s0 x := rotr32 x 7 ^^^ rotr32 x 18 ^^^ (x >>> 3)
  s1 x := rotr32 x 17 ^^^ rotr32 x 19 ^^^ (x >>> 10)
  S0 x := rotr32 x 2 ^^^ rotr32 x 13 ^^^ rotr32 x 22
  S1 x := rotr32 x 6 ^^^ rotr32 x 11 ^^^ rotr32 x 25

def lenBytesBig (bits : UInt64) : Bytes := (lenBytesLittle bits).reverse

/-- `mt_sha256_init`, `sha256_block` and what `mt_sha256_final` writes. -/
def sha256Scheme : Scheme (State8 UInt32) where
  size := 64
  lenPos := 56
  init := ⟨0x6a09e667, 0xbb67ae85, 0x3c6ef372, 0xa54ff53a, 0x510e527f, 0x9b05688c, 0x1f83d9ab,
    0x5be0cd19⟩
  block := sha256.block
  lenBytes := lenBytesBig
  output state := state.toList.flatMap fun x : UInt32 =>
    [(x >>> 24).toUInt8, (x >>> 16).toUInt8, (x >>> 8).toUInt8, x.toUInt8]
  lenPos_lt := lenPos_lt_size
  length_lenBytes bits := by simp [lenBytesBig, lenBytesLittle]

/-! ## SHA-512 -/

/-- `rotr64`. -/
def rotr64 (x n : UInt64) : UInt64 := (x >>> n) ||| (x <<< (64 - n))

/-- `K` of `sha512.c`. -/
def sha512K : List UInt64 :=
  [0x428a2f98d728ae22, 0x7137449123ef65cd, 0xb5c0fbcfec4d3b2f, 0xe9b5dba58189dbbc,
   0x3956c25bf348b538, 0x59f111f1b605d019, 0x923f82a4af194f9b, 0xab1c5ed5da6d8118,
   0xd807aa98a3030242, 0x12835b0145706fbe, 0x243185be4ee4b28c, 0x550c7dc3d5ffb4e2,
   0x72be5d74f27b896f, 0x80deb1fe3b1696b1, 0x9bdc06a725c71235, 0xc19bf174cf692694,
   0xe49b69c19ef14ad2, 0xefbe4786384f25e3, 0x0fc19dc68b8cd5b5, 0x240ca1cc77ac9c65,
   0x2de92c6f592b0275, 0x4a7484aa6ea6e483, 0x5cb0a9dcbd41fbd4, 0x76f988da831153b5,
   0x983e5152ee66dfab, 0xa831c66d2db43210, 0xb00327c898fb213f, 0xbf597fc7beef0ee4,
   0xc6e00bf33da88fc2, 0xd5a79147930aa725, 0x06ca6351e003826f, 0x142929670a0e6e70,
   0x27b70a8546d22ffc, 0x2e1b21385c26c926, 0x4d2c6dfc5ac42aed, 0x53380d139d95b3df,
   0x650a73548baf63de, 0x766a0abb3c77b2a8, 0x81c2c92e47edaee6, 0x92722c851482353b,
   0xa2bfe8a14cf10364, 0xa81a664bbc423001, 0xc24b8b70d0f89791, 0xc76c51a30654be30,
   0xd192e819d6ef5218, 0xd69906245565a910, 0xf40e35855771202a, 0x106aa07032bbd1b8,
   0x19a4c116b8d2d0c8, 0x1e376c085141ab53, 0x2748774cdf8eeb99, 0x34b0bcb5e19b48a8,
   0x391c0cb3c5c95a63, 0x4ed8aa4ae3418acb, 0x5b9cca4f7763e373, 0x682e6ff3d6b2b8a3,
   0x748f82ee5defb2fc, 0x78a5636f43172f60, 0x84c87814a1f0ab72, 0x8cc702081a6439ec,
   0x90befffa23631e28, 0xa4506cebde82bde9, 0xbef9a3f7b2c67915, 0xc67178f2e372532b,
   0xca273eceea26619c, 0xd186b8c721c0c207, 0xeada7dd6cde0eb1e, 0xf57d4f7fee6ed178,
   0x06f067aa72176fba, 0x0a637dc5a2c898a6, 0x113f9804bef90dae, 0x1b710b35131c471b,
   0x28db77f523047d84, 0x32caab7b40c72493, 0x3c9ebe0a15c9bebc, 0x431d67c49c100d4c,
   0x4cc5d4becb3e42b6, 0x597f299cfc657e2a, 0x5fcb6fab3ad6faec, 0x6c44198c4a475817]

def sha512 : Sha2 UInt64 where
  k := sha512K
  words block := (List.range 16).map fun i =>
    (List.range 8).foldl (fun v j => (v <<< 8) ||| (block.getD (i * 8 + j) 0).toUInt64) 0
  s0 x := rotr64 x 1 ^^^ rotr64 x 8 ^^^ (x >>> 7)
  s1 x := rotr64 x 19 ^^^ rotr64 x 61 ^^^ (x >>> 6)
  S0 x := rotr64 x 28 ^^^ rotr64 x 34 ^^^ rotr64 x 39
  S1 x := rotr64 x 14 ^^^ rotr64 x 18 ^^^ rotr64 x 41

/-- `mt_sha512_init`, `sha512_block` and what `mt_sha512_final` writes. -/
def sha512Scheme : Scheme (State8 UInt64) where
  size := 128
  lenPos := 112
  init := ⟨0x6a09e667f3bcc908, 0xbb67ae8584caa73b, 0x3c6ef372fe94f82b, 0xa54ff53a5f1d36f1,
    0x510e527fade682d1, 0x9b05688c2b3e6c1f, 0x1f83d9abfb41bd6b, 0x5be0cd19137e2179⟩
  block := sha512.block
  lenBytes bits := List.replicate 8 0 ++ lenBytesBig bits
  output state := state.toList.flatMap fun x : UInt64 =>
    (List.range 8).map fun j => (x >>> (8 * (7 - UInt64.ofNat j))).toUInt8
  lenPos_lt := by decide
  length_lenBytes bits := by simp [lenBytesBig, lenBytesLittle]

end MagiTrickle.Crypto
