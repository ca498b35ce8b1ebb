import MagiTrickle.Crypto.Base64
import MagiTrickle.Lib.Words

/-!
# Signed tokens (`crypto/jwt.c`)

cJSON is the parameter `CJson` and HMAC-SHA256 the parameter `hmac`. A claim is
cut to the size of its field as `snprintf` cuts it. `decodedCap` is the size of
the buffer that `decode_claims` provides for the decoder.
-/

namespace MagiTrickle.Crypto

/-! ## The parameters -/

/-- What a name of an object stands for; a number as the `int64_t` it is converted to. -/
inductive Item where
  | string (s : Bytes)
  | number (n : Int)
  | other
  deriving DecidableEq, Repr

/-- The cJSON library: an object of the two strings and the two numbers of the claims as text, if
there is memory for it, and what the names of the object in a text stand for. -/
structure CJson where
  print : (sub iss : Bytes) → (iat exp : Int) → Option Bytes
  parse : Bytes → Option (Bytes → Option Item)

abbrev Digest := { mac : Bytes // mac.length = 32 }

/-! ## The functions -/

/-- `mt_jwt_claims_t`. -/
structure Claims where
  sub : Bytes
  iss : Bytes
  iat : Int
  exp : Int
  deriving DecidableEq, Repr

/-- The text that `snprintf` leaves in a field. -/
def fill (size : Nat) (s : Bytes) : Bytes := s.take (size - 1)

/-- `MT_JWT_MAX_SUB`. -/
def maxSub : Nat := 256

/-- `MT_JWT_MAX_ISS`. -/
def maxIss : Nat := 64

/-- `JWT_HEADER_JSON`. -/
def headerJson : Bytes := str "\x7b\"alg\":\"HS256\",\"typ\":\"JWT\"\x7d"

section Sign

variable (cjson : CJson) (hmac : (key msg : Bytes) → Digest)

/-- `build_claims_json`. -/
def buildClaimsJson (claims : Claims) : Option Bytes :=
  cjson.print claims.sub claims.iss claims.iat claims.exp

/-- `hmac_sign`. -/
def hmacSign (payload secret : Bytes) : Bytes := base64urlEncode (hmac secret payload).1

/-- `mt_jwt_sign`. -/
def jwtSign (claims : Claims) (secret : Bytes) (outLen : Nat) : Except Err Bytes :=
  match buildClaimsJson cjson claims with
  | none => .error .nomem
  | some claimsJson =>
    if base64urlEncodedLen headerJson.length ≥ 64 then .error .limit
    else
      let payload := base64urlEncode headerJson ++ dot :: base64urlEncode claimsJson
      let sig := hmacSign hmac payload secret
      if outLen < payload.length + 1 + sig.length + 1 then .error .limit
      else .ok (payload ++ dot :: sig)

/-- `split_token`. -/
def splitToken (token : Bytes) : Except Err (Bytes × Bytes × Bytes) :=
  match token.splitOn dot with
  | [p1, p2, p3] => .ok (p1, p2, p3)
  | _ => .error .proto

/-- The size of the buffer of `decode_claims`. -/
def decodedCap (claimsB64Len : Nat) : Nat := ((claimsB64Len + 3) / 4) * 3 + 1

/-- `decode_claims`. -/
def decodeClaims (claimsB64 : Bytes) : Except Err Claims :=
  let (decoded, ok) := base64urlDecode claimsB64
  if !ok then .error .proto
  else
    match cjson.parse decoded with
    | none => .error .proto
    | some obj =>
      let text (name : String) (size : Nat) := match obj (str name) with
        | some (.string s) => fill size s
        | _ => []
      let number (name : String) := match obj (str name) with
        | some (.number n) => n
        | _ => 0
      .ok ⟨text "sub" maxSub, text "iss" maxIss, number "iat", number "exp"⟩

/-- `mt_jwt_parse_unverified`. -/
def jwtParseUnverified (token : Bytes) : Except Err Claims := do
  let (_, p2, _) ← splitToken token
  decodeClaims cjson p2

/-- `mt_jwt_parse_and_verify`. -/
def jwtParseAndVerify (token secret : Bytes) : Except Err Claims := do
  let (p1, p2, p3) ← splitToken token
  let expectedSig := base64urlEncode (hmac secret (p1 ++ dot :: p2)).1
  if p3.length ≠ expectedSig.length ∨ expectedSig ≠ p3 then .error .inval
  else decodeClaims cjson p2

end Sign

/-! ## Parts of a token -/

theorem splitToken_eq_ok {token p1 p2 p3 : Bytes} :
    splitToken token = .ok (p1, p2, p3) ↔
      token = p1 ++ dot :: (p2 ++ dot :: p3) ∧ dot ∉ p1 ∧ dot ∉ p2 ∧ dot ∉ p3 := by
  have hjoin : token = [dot].intercalate (token.splitOn dot) :=
    (List.intercalate_splitOn dot).symm
  have hnot {w : Bytes} (hw : w ∈ token.splitOn dot) : dot ∉ w := by
    intro hmem
    have hsep := Lib.Words.not_sep_of_mem_splitOnP hw dot hmem
    simp at hsep
  unfold splitToken
  constructor
  · intro h
    split at h
    · rename_i hsplit
      cases h
      rw [hsplit] at hjoin hnot
      exact ⟨by rw [hjoin]; simp [List.intercalate], hnot (by simp), hnot (by simp), hnot (by simp)⟩
    · cases h
  · rintro ⟨rfl, h1, h2, h3⟩
    rw [List.splitOn_append_cons_self_of_not_mem h1, List.splitOn_append_cons_self_of_not_mem h2,
      List.splitOn_eq_singleton h3]

theorem dot_not_mem_base64url (data : Bytes) : dot ∉ base64urlEncode data :=
  fun h => absurd (mem_encodeCore isAlphabet_url h) (by decide +kernel)

section Claims

variable {cjson : CJson} {hmac : (key msg : Bytes) → Digest}

/-- A signed token: the parts that verifying it reads. -/
theorem jwtSign_eq_ok {claims : Claims} {secret token : Bytes} {outLen : Nat}
    (h : jwtSign cjson hmac claims secret outLen = .ok token) :
    ∃ text, buildClaimsJson cjson claims = some text ∧
      splitToken token = .ok (base64urlEncode headerJson, base64urlEncode text,
        base64urlEncode (hmac secret (base64urlEncode headerJson ++ dot :: base64urlEncode text)).1) := by
  unfold jwtSign at h
  split at h
  · cases h
  rename_i text htext
  refine ⟨text, htext, ?_⟩
  split at h
  · cases h
  dsimp only at h
  split at h
  · cases h
  cases h
  rw [splitToken_eq_ok]
  refine ⟨?_, dot_not_mem_base64url _, dot_not_mem_base64url _, dot_not_mem_base64url _⟩
  rw [hmacSign, List.append_assoc, List.cons_append]

/-- What `jwt_parse_unverified` yields is what verifying yields. -/
theorem jwtParseAndVerify_eq_ok {token secret : Bytes} {claims : Claims} :
    jwtParseAndVerify cjson hmac token secret = .ok claims ↔
      ∃ p1 p2 p3, splitToken token = .ok (p1, p2, p3) ∧
        p3 = base64urlEncode (hmac secret (p1 ++ dot :: p2)).1 ∧
        decodeClaims cjson p2 = .ok claims := by
  unfold jwtParseAndVerify
  cases hsplit : splitToken token with
  | error e =>
    constructor
    · exact fun h => nomatch h
    · rintro ⟨p1, p2, p3, h, -⟩
      cases h
  | ok parts =>
    obtain ⟨p1, p2, p3⟩ := parts
    show (if _ then _ else _) = _ ↔ _
    constructor
    · intro h
      split at h
      · cases h
      rename_i hsig
      rw [not_or, not_ne_iff, not_ne_iff] at hsig
      exact ⟨p1, p2, p3, rfl, hsig.2.symm, h⟩
    · rintro ⟨p1', p2', p3', hparts, hsig, hclaims⟩
      cases hparts
      rw [if_neg (by rw [hsig]; simp), hclaims]

theorem jwtParseUnverified_eq_ok {token : Bytes} {claims : Claims} :
    jwtParseUnverified cjson token = .ok claims ↔
      ∃ p1 p2 p3, splitToken token = .ok (p1, p2, p3) ∧ decodeClaims cjson p2 = .ok claims := by
  unfold jwtParseUnverified
  cases hsplit : splitToken token with
  | error e =>
    constructor
    · exact fun h => nomatch h
    · rintro ⟨p1, p2, p3, h, -⟩
      cases h
  | ok parts =>
    obtain ⟨p1, p2, p3⟩ := parts
    constructor
    · exact fun h => ⟨p1, p2, p3, rfl, h⟩
    · rintro ⟨p1', p2', p3', hparts, hclaims⟩
      cases hparts
      exact hclaims

/-! ## Claims -/

/-- The library reads back what it prints: strings without a zero byte, and numbers that a double
holds. -/
def CJson.Exact (cjson : CJson) : Prop :=
  ∀ sub iss iat exp text, 0 ∉ sub → 0 ∉ iss → |iat| < 2 ^ 53 → |exp| < 2 ^ 53 →
    cjson.print sub iss iat exp = some text →
    ∃ obj, cjson.parse text = some obj ∧ obj (str "sub") = some (.string sub) ∧
      obj (str "iss") = some (.string iss) ∧ obj (str "iat") = some (.number iat) ∧
      obj (str "exp") = some (.number exp)

/-- Claims that fit their fields are read as they were signed. -/
theorem decodeClaims_encode (hexact : cjson.Exact) {claims : Claims} {text : Bytes}
    (hsub : claims.sub.length < maxSub) (hiss : claims.iss.length < maxIss)
    (hsub0 : 0 ∉ claims.sub) (hiss0 : 0 ∉ claims.iss) (hiat : |claims.iat| < 2 ^ 53)
    (hexp : |claims.exp| < 2 ^ 53) (htext : buildClaimsJson cjson claims = some text) :
    decodeClaims cjson (base64urlEncode text) = .ok claims := by
  obtain ⟨obj, hparse, hs, hi, ha, he⟩ := hexact _ _ _ _ _ hsub0 hiss0 hiat hexp htext
  have hround : base64urlDecode (base64urlEncode text) = (text, true) :=
    decodeCore_encodeCore isAlphabet_url false text
  unfold decodeClaims
  rw [hround]
  simp only [Bool.not_true, Bool.false_eq_true, if_false, hparse, hs, hi, ha, he]
  rw [fill, fill, List.take_of_length_le (by omega), List.take_of_length_le (by omega)]

end Claims

end MagiTrickle.Crypto
