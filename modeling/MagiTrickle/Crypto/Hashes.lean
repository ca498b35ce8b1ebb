import MagiTrickle.Crypto.Md5
import MagiTrickle.Crypto.Sha2

/-!
# The digests in pieces (`hash.h`)

`sha256Spec`, `sha512Spec` and `md5Spec` are the digests of whole messages:
padded with `0x80`, zeros and the number of bits, in 64 or 128 bits, and cut
into blocks. `streaming_exact` says that the functions of `hash.h` compute them
for every way to cut the message into pieces, and `hmacSha256_eq` that the HMAC
hashes what it is to hash.
-/

namespace MagiTrickle.Crypto

open Lib.Blocks

/-! ## The functions -/

/-- `mt_sha256_init`, for a context in memory that holds `buf`. -/
def sha256Init (buf : Buffer 64) : Ctx sha256Scheme := .init sha256Scheme buf

/-- `mt_sha256_update`. -/
def sha256Update (ctx : Ctx sha256Scheme) (data : Bytes) : Ctx sha256Scheme := ctx.update data

/-- `mt_sha256_final`. -/
def sha256Final (ctx : Ctx sha256Scheme) : Bytes := ctx.final

/-- `mt_sha512_init`. -/
def sha512Init (buf : Buffer 128) : Ctx sha512Scheme := .init sha512Scheme buf

/-- `mt_sha512_update`. -/
def sha512Update (ctx : Ctx sha512Scheme) (data : Bytes) : Ctx sha512Scheme := ctx.update data

/-- `mt_sha512_final`. -/
def sha512Final (ctx : Ctx sha512Scheme) : Bytes := ctx.final

/-- `mt_md5_init`. -/
def md5Init (buf : Buffer 64) : Ctx md5Scheme := .init md5Scheme buf

/-- `mt_md5_update`. -/
def md5Update (ctx : Ctx md5Scheme) (data : Bytes) : Ctx md5Scheme := ctx.update data

/-- `mt_md5_final`. -/
def md5Final (ctx : Ctx md5Scheme) : Bytes := ctx.final

/-- `mt_sha256`. -/
def mtSha256 (buf : Buffer 64) (data : Bytes) : Bytes :=
  sha256Final (sha256Update (sha256Init buf) data)

/-- `mt_hmac_sha256`; `bufs` is what the memory of its contexts holds. -/
def hmacSha256 (bufs : Nat → Buffer 64) (key msg : Bytes) : Bytes :=
  let key := if key.length > 64 then mtSha256 (bufs 0) key else key
  let keyBlock := key ++ List.replicate (64 - key.length) 0
  let ipad := keyBlock.map (· ^^^ 0x36)
  let opad := keyBlock.map (· ^^^ 0x5c)
  let inner := sha256Final (sha256Update (sha256Update (sha256Init (bufs 1)) ipad) msg)
  sha256Final (sha256Update (sha256Update (sha256Init (bufs 2)) opad) inner)

/-! ## The digests of whole messages -/

/-- SHA-256: 64 bits for the length, the highest first. -/
def sha256Spec (msg : Bytes) : Bytes := digest sha256Scheme (fun n => bigEndian 8 (8 * n)) msg

/-- SHA-512: 128 bits for the length, the highest first. -/
def sha512Spec (msg : Bytes) : Bytes := digest sha512Scheme (fun n => bigEndian 16 (8 * n)) msg

/-- MD5: 64 bits for the length, the lowest first. -/
def md5Spec (msg : Bytes) : Bytes := digest md5Scheme (fun n => littleEndian 8 (8 * n)) msg

example : sha256Spec (str "abc") =
    [0xba, 0x78, 0x16, 0xbf, 0x8f, 0x01, 0xcf, 0xea, 0x41, 0x41, 0x40, 0xde, 0x5d, 0xae, 0x22, 0x23,
      0xb0, 0x03, 0x61, 0xa3, 0x96, 0x17, 0x7a, 0x9c, 0xb4, 0x10, 0xff, 0x61, 0xf2, 0x00, 0x15,
      0xad] := by
  decide +kernel

example : md5Spec (str "abc") =
    [0x90, 0x01, 0x50, 0x98, 0x3c, 0xd2, 0x4f, 0xb0, 0xd6, 0x96, 0x3f, 0x7d, 0x28, 0xe1, 0x7f,
      0x72] := by
  decide +kernel

example : (sha512Spec (str "abc")).take 8 = [0xdd, 0xaf, 0x35, 0xa1, 0x93, 0x61, 0x7a, 0xba] := by
  decide +kernel

/-! ## Pieces -/

theorem sha256_pieces (buf : Buffer 64) {pieces : List Bytes} (h : pieces.flatten.length < 2 ^ 61) :
    sha256Final (pieces.foldl sha256Update (sha256Init buf)) = sha256Spec pieces.flatten :=
  final_foldl_update sha256Scheme buf pieces (congrArg List.reverse (lenBytesLittle_eq h))

/-- For every message of less than `2 ^ 61` bytes and every way to cut it into pieces the digests
are those of the whole message. -/
theorem streaming_exact (pieces : List Bytes) (h : pieces.flatten.length < 2 ^ 61) :
    (∀ buf, sha256Final (pieces.foldl sha256Update (sha256Init buf)) = sha256Spec pieces.flatten) ∧
    (∀ buf, sha512Final (pieces.foldl sha512Update (sha512Init buf)) = sha512Spec pieces.flatten) ∧
    ∀ buf, md5Final (pieces.foldl md5Update (md5Init buf)) = md5Spec pieces.flatten := by
  refine ⟨fun buf => sha256_pieces buf h, fun buf => final_foldl_update sha512Scheme buf pieces ?_,
    fun buf => final_foldl_update md5Scheme buf pieces (lenBytesLittle_eq h)⟩
  -- the upper 64 bits of the length are zero
  have hupper : bigEndian 16 (8 * pieces.flatten.length) =
      List.replicate 8 0 ++ bigEndian 8 (8 * pieces.flatten.length) :=
    bigEndian_add 8 (by omega)
  rw [hupper]
  exact congrArg (List.replicate 8 0 ++ List.reverse ·) (lenBytesLittle_eq h)

def acrossBlocks : List Bytes := [List.replicate 60 97, List.replicate 90 98, List.replicate 7 99]

theorem streaming_exact_acrossBlocks :
    sha256Final (acrossBlocks.foldl sha256Update (sha256Init ⟨List.replicate 64 0, rfl⟩)) =
        sha256Spec acrossBlocks.flatten ∧
      sha512Final (acrossBlocks.foldl sha512Update (sha512Init ⟨List.replicate 128 0, rfl⟩)) =
        sha512Spec acrossBlocks.flatten ∧
      md5Final (acrossBlocks.foldl md5Update (md5Init ⟨List.replicate 64 0, rfl⟩)) =
        md5Spec acrossBlocks.flatten := by
  obtain ⟨hsha256, hsha512, hmd5⟩ := streaming_exact acrossBlocks (by decide +kernel)
  exact ⟨hsha256 _, hsha512 _, hmd5 _⟩

/-! ## HMAC -/

def hmacKey (key : Bytes) : Bytes :=
  let key := if key.length > 64 then sha256Spec key else key
  key ++ List.replicate (64 - key.length) 0

/-- HMAC-SHA256 over the digests of whole messages. -/
def hmacSpec (key msg : Bytes) : Bytes :=
  sha256Spec ((hmacKey key).map (· ^^^ 0x5c) ++ sha256Spec ((hmacKey key).map (· ^^^ 0x36) ++ msg))

theorem length_sha256Spec (msg : Bytes) : (sha256Spec msg).length = 32 := rfl

theorem length_hmacKey (key : Bytes) : (hmacKey key).length = 64 := by
  unfold hmacKey
  dsimp only
  split
  · rw [List.length_append, List.length_replicate, length_sha256Spec]
  · rw [List.length_append, List.length_replicate]
    omega

section Hmac

variable (buf : Buffer 64) {data data' : Bytes}

theorem sha256_one (h : data.length < 2 ^ 61) :
    sha256Final (sha256Update (sha256Init buf) data) = sha256Spec data := by
  have hflat : [data].flatten = data := List.flatten_singleton
  have hone := @sha256_pieces buf [data] (by rwa [hflat])
  rwa [hflat] at hone

theorem sha256_two (h : data.length + data'.length < 2 ^ 61) :
    sha256Final (sha256Update (sha256Update (sha256Init buf) data) data') =
      sha256Spec (data ++ data') := by
  have hflat : [data, data'].flatten = data ++ data' := by
    rw [List.flatten_cons, List.flatten_singleton]
  have htwo := @sha256_pieces buf [data, data'] (by rwa [hflat, List.length_append])
  rwa [hflat] at htwo

end Hmac

/-- The HMAC, which feeds its two messages in pieces, hashes what it is to hash. -/
theorem hmacSha256_eq (bufs : Nat → Buffer 64) {key msg : Bytes} (hkey : key.length < 2 ^ 61)
    (hmsg : msg.length + 64 < 2 ^ 61) : hmacSha256 bufs key msg = hmacSpec key msg := by
  have hlen (x : UInt8) : ((hmacKey key).map (· ^^^ x)).length = 64 := by
    rw [List.length_map, length_hmacKey]
  have hkeyBlock : (if key.length > 64 then mtSha256 (bufs 0) key else key) =
      if key.length > 64 then sha256Spec key else key := by
    rw [mtSha256, sha256_one (bufs 0) hkey]
  have hinner := @sha256_two (bufs 1) ((hmacKey key).map (· ^^^ 0x36)) msg (by rw [hlen]; omega)
  unfold hmacSha256
  simp only [hkeyBlock]
  rw [← hmacKey, hinner, sha256_two (bufs 2), hmacSpec]
  rw [hlen, length_sha256Spec]
  decide

end MagiTrickle.Crypto
