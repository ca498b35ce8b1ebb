import MagiTrickle.Auth.Secret
import MagiTrickle.Auth.Years
import MagiTrickle.Crypto.Crypt

/-!
# Session tokens (`api/auth.c`)

The two password files are what opening them gives, and the secret is what
`mt_auth_load_secret` gives. Strings of C hold no zero byte. `token_exact` says
which tokens are accepted: those that were issued, as long as the password hash
stays, and only signed ones.
-/

namespace MagiTrickle.Auth

open Crypto

/-! ## Password hashes -/

/-- The lines of a file that `getline` yields, without their ends. -/
def lines (content : Bytes) : List Bytes :=
  (content.splitOn 10).map fun line => line.rdropWhile fun c => c == 10 || c == 13

/-- A turn of the loop over the lines; without a result the loop goes on. -/
def readLine (login : Bytes) (outLen : Nat) (line : Bytes) : Option (Except Err Bytes) :=
  if line = [] ∨ line.head? = some 35 then none
  else if 58 ∉ line then none
  else
    let name := line.takeWhile (· != 58)
    if name.length ≠ login.length ∨ name ≠ login then none
    else
      let rest := ((line.dropWhile (· != 58)).drop 1).takeWhile (· != 0)
      let hash := ((rest.takeWhile (· != 58)).rdropWhile Libc.isSpace).dropWhile Libc.isSpace
      if hash = [] ∨ hash = str "x" ∨ hash = str "*" then some (.error .noent)
      else if hash.length ≥ outLen then some (.error .limit)
      else some (.ok hash)

/-- `mt_auth_load_password_hash_from`. -/
def loadPasswordHashFrom (shadow passwd : Except Err Bytes) (login : Bytes) (outLen : Nat) :
    Except Err Bytes :=
  match shadow, passwd with
  | .ok content, _ => ((lines content).findSome? (readLine login outLen)).getD (.error .noent)
  | .error _, .ok content => ((lines content).findSome? (readLine login outLen)).getD (.error .noent)
  | .error _, .error e => .error e

/-! ## Tokens -/

/-- `MT_AUTH_JWT_ISSUER`. -/
def jwtIssuer : Bytes := str "magitrickle"

/-- `MT_AUTH_JWT_YEARS`. -/
def jwtYears : Int := 20

/-- `hex_encode`. -/
def hexEncode (data : Bytes) : Bytes :=
  let digits := str "0123456789abcdef"
  data.flatMap fun b : UInt8 => [digits.getD (b >>> 4).toNat 0, digits.getD (b &&& 0xf).toNat 0]

section Tokens

variable (cjson : CJson) (hmac : (key msg : Bytes) → Digest) (secret : Except Err Bytes)

/-- `derive_signing_key`. -/
def deriveSigningKey (passwordHash : Bytes) (outHexLen : Nat) : Except Err Bytes := do
  let secret ← secret
  let mac := hmac secret passwordHash
  if outHexLen < mac.1.length * 2 + 1 then .error .limit else .ok (hexEncode mac.1)

/-- `mt_auth_authenticate_from`; there is no result if the expiry leaves 64 bits. -/
def authenticateFrom (d : Digests) (shadow passwd : Except Err Bytes) (login password : Bytes)
    (now : Int) (tokenOutLen : Nat) : Option (Except Err Bytes) :=
  if login = [] ∨ password = [] then some (.error .inval)
  else
    match loadPasswordHashFrom shadow passwd login 128 with
    | .error e => some (.error e)
    | .ok passwordHash =>
      if cryptPassword d password passwordHash 128 ≠ .ok passwordHash then some (.error .inval)
      else
        match deriveSigningKey hmac secret passwordHash 65 with
        | .error e => some (.error e)
        | .ok signingKey =>
          (addYearsUtc now jwtYears).map fun exp =>
            jwtSign cjson hmac ⟨fill maxSub login, fill maxIss jwtIssuer, now, exp⟩ signingKey
              tokenOutLen

/-- `mt_auth_verify_token_from`. -/
def verifyTokenFrom (shadow passwd : Except Err Bytes) (token : Bytes) (now : Int) :
    Except Err Unit :=
  match jwtParseUnverified cjson token with
  | .error _ => .error .inval
  | .ok unverified =>
    if unverified.sub = [] then .error .inval
    else
      match loadPasswordHashFrom shadow passwd unverified.sub 128 with
      | .error _ => .error .inval
      | .ok passwordHash =>
        match deriveSigningKey hmac secret passwordHash 65 with
        | .error _ => .error .inval
        | .ok signingKey =>
          match jwtParseAndVerify cjson hmac token signingKey with
          | .error _ => .error .inval
          | .ok verified =>
            if verified.sub ≠ unverified.sub then .error .inval
            else if verified.iss ≠ jwtIssuer then .error .inval
            else if verified.exp ≤ now then .error .inval
            else .ok ()

end Tokens

/-! ## Accepted tokens -/

section Accepted

variable {cjson : CJson} {hmac : (key msg : Bytes) → Digest} {secret : Except Err Bytes}
  {shadow passwd : Except Err Bytes}

/-- What makes a token acceptable: three parts, claims with the issuer and a later expiry, and the
HMAC of the first two parts under the key of the subject's password hash. -/
structure Signed (cjson : CJson) (hmac : (key msg : Bytes) → Digest)
    (secret shadow passwd : Except Err Bytes) (token : Bytes) (now : Int) (claims : Claims) :
    Prop where
  parts : ∃ p1 p2 p3, token = p1 ++ dot :: (p2 ++ dot :: p3) ∧ dot ∉ p1 ∧ dot ∉ p2 ∧ dot ∉ p3 ∧
    decodeClaims cjson p2 = .ok claims ∧
    ∃ key hash, secret = .ok key ∧ loadPasswordHashFrom shadow passwd claims.sub 128 = .ok hash ∧
      p3 = base64urlEncode (hmac (hexEncode (hmac key hash).1) (p1 ++ dot :: p2)).1
  sub : claims.sub ≠ []
  iss : claims.iss = jwtIssuer
  exp : now < claims.exp

theorem deriveSigningKey_eq_ok {hash key : Bytes} :
    deriveSigningKey hmac secret hash 65 = .ok key ↔
      ∃ s, secret = .ok s ∧ key = hexEncode (hmac s hash).1 := by
  unfold deriveSigningKey
  cases secret with
  | error e =>
    constructor
    · exact fun h => nomatch h
    · rintro ⟨s, h, -⟩
      cases h
  | ok s =>
    have hlen : ¬65 < (hmac s hash).1.length * 2 + 1 := by
      rw [(hmac s hash).2]
      omega
    simp only [bind, Except.bind]
    rw [if_neg hlen]
    constructor
    · intro h
      cases h
      exact ⟨s, rfl, rfl⟩
    · rintro ⟨s', hs, rfl⟩
      cases hs
      rfl

theorem verifyTokenFrom_eq_ok {token : Bytes} {now : Int} :
    verifyTokenFrom cjson hmac secret shadow passwd token now = .ok () ↔
      ∃ claims, Signed cjson hmac secret shadow passwd token now claims := by
  constructor
  · intro h
    unfold verifyTokenFrom at h
    split at h
    · cases h
    rename_i unverified hunverified
    split at h
    · cases h
    rename_i hsub
    split at h
    · cases h
    rename_i hash hload
    split at h
    · cases h
    rename_i key hkey
    split at h
    · cases h
    rename_i verified hverified
    split at h
    · cases h
    rename_i hsame
    split at h
    · cases h
    rename_i hiss
    split at h
    · cases h
    rename_i hexp
    obtain ⟨p1, p2, p3, hsplit, hsig, hclaims⟩ := jwtParseAndVerify_eq_ok.mp hverified
    obtain ⟨s, hs, rfl⟩ := deriveSigningKey_eq_ok.mp hkey
    rw [not_ne_iff] at hsame hiss
    rw [← hsame] at hsub hload
    obtain ⟨htoken, h1, h2, h3⟩ := splitToken_eq_ok.mp hsplit
    exact ⟨verified, ⟨p1, p2, p3, htoken, h1, h2, h3, hclaims, s, hash, hs, hload, hsig⟩, hsub, hiss,
      by omega⟩
  · rintro ⟨claims, ⟨p1, p2, p3, htoken, h1, h2, h3, hclaims, s, hash, hs, hload, hsig⟩, hsub, hiss,
      hexp⟩
    have hsplit := splitToken_eq_ok.mpr ⟨htoken, h1, h2, h3⟩
    have hunverified : jwtParseUnverified cjson token = .ok claims :=
      jwtParseUnverified_eq_ok.mpr ⟨p1, p2, p3, hsplit, hclaims⟩
    have hkey : deriveSigningKey hmac secret hash 65 = .ok (hexEncode (hmac s hash).1) :=
      deriveSigningKey_eq_ok.mpr ⟨s, hs, rfl⟩
    have hverified : jwtParseAndVerify cjson hmac token (hexEncode (hmac s hash).1) = .ok claims :=
      jwtParseAndVerify_eq_ok.mpr ⟨p1, p2, p3, hsplit, hsig, hclaims⟩
    unfold verifyTokenFrom
    simp only [hunverified, if_neg hsub, hload, hkey, hverified]
    rw [if_neg (not_ne_iff.mpr rfl), if_neg (not_ne_iff.mpr hiss), if_neg (by omega)]

theorem authenticateFrom_eq_ok {d : Digests} {login password token : Bytes} {now : Int}
    {outLen : Nat} (h : authenticateFrom cjson hmac secret d shadow passwd login password now outLen =
      some (.ok token)) :
    login ≠ [] ∧ ∃ hash s exp, loadPasswordHashFrom shadow passwd login 128 = .ok hash ∧
      secret = .ok s ∧ addYearsUtc now jwtYears = some exp ∧
      jwtSign cjson hmac ⟨fill maxSub login, fill maxIss jwtIssuer, now, exp⟩
        (hexEncode (hmac s hash).1) outLen = .ok token := by
  unfold authenticateFrom at h
  split at h
  · cases h
  rename_i hempty
  split at h
  · cases h
  rename_i hash hload
  split at h
  · cases h
  split at h
  · cases h
  rename_i key hkey
  obtain ⟨s, hs, rfl⟩ := deriveSigningKey_eq_ok.mp hkey
  obtain ⟨exp, hexp, hsign⟩ := Option.map_eq_some_iff.mp h
  rw [not_or] at hempty
  exact ⟨hempty.1, hash, s, exp, hload, hs, hexp, hsign⟩

theorem fill_jwtIssuer : fill maxIss jwtIssuer = jwtIssuer := by decide +kernel

/-- An issued token is signed at every time before its expiry, as long as the hash stays. -/
theorem signed_of_authenticate {d : Digests} {shadow' passwd' : Except Err Bytes}
    {login password token : Bytes} {now exp t : Int} {outLen : Nat} (hcjson : cjson.Exact)
    (hlogin : login.length < 256) (hlogin0 : 0 ∉ login) (hnow : |now| < 2 ^ 53)
    (hexp : addYearsUtc now jwtYears = some exp) (hexp53 : |exp| < 2 ^ 53)
    (h : authenticateFrom cjson hmac secret d shadow passwd login password now outLen =
      some (.ok token))
    (hsame : loadPasswordHashFrom shadow' passwd' login 128 =
      loadPasswordHashFrom shadow passwd login 128) (ht : t < exp) :
    Signed cjson hmac secret shadow' passwd' token t ⟨login, jwtIssuer, now, exp⟩ := by
  obtain ⟨hne, hash, s, exp', hload, hs, hexp', hsign⟩ := authenticateFrom_eq_ok h
  rw [hexp, Option.some.injEq] at hexp'
  subst hexp'
  have hfill : fill maxSub login = login :=
    List.take_of_length_le (show login.length ≤ 255 by omega)
  rw [hfill, fill_jwtIssuer] at hsign
  obtain ⟨text, htext, hsplit⟩ := jwtSign_eq_ok hsign
  obtain ⟨htoken, h1, h2, h3⟩ := splitToken_eq_ok.mp hsplit
  have hclaims : decodeClaims cjson (base64urlEncode text) = .ok ⟨login, jwtIssuer, now, exp⟩ :=
    decodeClaims_encode hcjson hlogin (show jwtIssuer.length < maxIss by decide +kernel) hlogin0
      (show 0 ∉ jwtIssuer by decide +kernel) hnow hexp53 htext
  exact ⟨⟨_, _, _, htoken, h1, h2, h3, hclaims, s, hash, hs, hsame.trans hload, rfl⟩, hne, rfl, ht⟩

/-- The subject that a token names. -/
def Names (cjson : CJson) (token subject : Bytes) : Prop :=
  ∃ p1 p2 p3 text obj, splitToken token = .ok (p1, p2, p3) ∧ base64urlDecode p2 = (text, true) ∧
    cjson.parse text = some obj ∧ obj (str "sub") = some (.string subject)

theorem Signed.names {token : Bytes} {now : Int} {claims : Claims}
    (h : Signed cjson hmac secret shadow passwd token now claims) :
    ∃ subject, Names cjson token subject ∧ claims.sub = fill maxSub subject := by
  obtain ⟨⟨p1, p2, p3, htoken, h1, h2, h3, hclaims, -⟩, hsub, -, -⟩ := h
  have hsplit := splitToken_eq_ok.mpr ⟨htoken, h1, h2, h3⟩
  unfold decodeClaims at hclaims
  generalize hdecode : base64urlDecode p2 = r at hclaims
  obtain ⟨text, ok⟩ := r
  dsimp only at hclaims
  split at hclaims
  · cases hclaims
  rename_i hok
  split at hclaims
  · cases hclaims
  rename_i obj hparse
  have hok' : ok = true := by simpa using hok
  subst hok'
  cases hclaims
  dsimp only at hsub ⊢
  split at hsub
  · rename_i subject hobj
    exact ⟨subject, ⟨p1, p2, p3, text, obj, hsplit, hdecode, hparse, hobj⟩, rfl⟩
  · exact (hsub rfl).elim

end Accepted

/-- A token that was issued for a login is accepted until it expires, as long as the login's
password hash stays; and an accepted token has three parts, the last of which is the HMAC of the
first two under the key of the password hash of the subject it names, with the issuer and an expiry
in the future. -/
theorem token_exact (cjson : CJson) (hmac : (key msg : Bytes) → Digest) (secret : Except Err Bytes)
    (hcjson : cjson.Exact) :
    (∀ d shadow passwd login password now outLen token exp, login.length < 256 → 0 ∉ login →
      authenticateFrom cjson hmac secret d shadow passwd login password now outLen =
        some (.ok token) →
      addYearsUtc now jwtYears = some exp → |now| < 2 ^ 53 → |exp| < 2 ^ 53 →
      ∀ shadow' passwd' t, loadPasswordHashFrom shadow' passwd' login 128 =
        loadPasswordHashFrom shadow passwd login 128 → t < exp →
      verifyTokenFrom cjson hmac secret shadow' passwd' token t = .ok ()) ∧
    ∀ shadow passwd token t, verifyTokenFrom cjson hmac secret shadow passwd token t = .ok () →
      ∃ claims subject, Signed cjson hmac secret shadow passwd token t claims ∧
        Names cjson token subject ∧ claims.sub = fill maxSub subject ∧
        (subject.length < 256 → claims.sub = subject) := by
  refine ⟨?_, ?_⟩
  · intro d shadow passwd login password now outLen token exp hlogin hlogin0 hissued hexp hnow hexp53
      shadow' passwd' t hsame ht
    exact verifyTokenFrom_eq_ok.mpr
      ⟨_, signed_of_authenticate hcjson hlogin hlogin0 hnow hexp hexp53 hissued hsame ht⟩
  · intro shadow passwd token t hverify
    obtain ⟨claims, hsigned⟩ := verifyTokenFrom_eq_ok.mp hverify
    obtain ⟨subject, hnames, hsub⟩ := hsigned.names
    refine ⟨claims, subject, hsigned, hnames, hsub, fun hlt => ?_⟩
    rw [hsub]
    exact List.take_of_length_le (show subject.length ≤ 255 by omega)

/-! ## A session -/

def rootClaims : Bytes :=
  str "\x7b\"sub\":\"root\",\"iss\":\"magitrickle\",\"iat\":0,\"exp\":631152000\x7d"

def rootObject (name : Bytes) : Option Item :=
  if name = str "sub" then some (.string (str "root"))
  else if name = str "iss" then some (.string jwtIssuer)
  else if name = str "iat" then some (.number 0)
  else if name = str "exp" then some (.number 631152000)
  else none

def oneObject : CJson where
  print sub iss iat exp :=
    if sub = str "root" ∧ iss = jwtIssuer ∧ iat = 0 ∧ exp = 631152000 then some rootClaims else none
  parse text := if text = rootClaims then some rootObject else none

theorem oneObject_exact : oneObject.Exact := by
  intro sub iss iat exp text _ _ _ _ h
  obtain ⟨h', htext⟩ : (sub = str "root" ∧ iss = jwtIssuer ∧ iat = 0 ∧ exp = 631152000) ∧
      rootClaims = text := by
    unfold oneObject at h
    dsimp only at h
    split at h
    · exact ⟨‹_›, Option.some.inj h⟩
    · cases h
  obtain ⟨rfl, rfl, rfl, rfl⟩ := h'
  subst htext
  exact ⟨rootObject, by simp [oneObject], by decide +kernel, by decide +kernel, by decide +kernel,
    by decide +kernel⟩

def zeroHmac (_key _msg : Bytes) : Digest := zeroDigests.sha256 []

def rootShadow : Except Err Bytes := .ok (str "root:$1$ab$......................:0\n")

theorem token_exact_root : ∃ token,
    authenticateFrom oneObject zeroHmac (.ok [1]) zeroDigests rootShadow (.error .noent) (str "root")
      (str "pw") 0 1024 = some (.ok token) ∧
    verifyTokenFrom oneObject zeroHmac (.ok [1]) rootShadow (.error .noent) token 631151999 =
      .ok () ∧
    ∃ claims, Signed oneObject zeroHmac (.ok [1]) rootShadow (.error .noent) token 631151999
      claims := by
  obtain ⟨hissued, haccepted⟩ := token_exact oneObject zeroHmac (.ok [1]) oneObject_exact
  have hok : ∃ token, authenticateFrom oneObject zeroHmac (.ok [1]) zeroDigests rootShadow
      (.error .noent) (str "root") (str "pw") 0 1024 = some (.ok token) := by
    refine ⟨base64urlEncode headerJson ++ dot :: (base64urlEncode rootClaims ++
      dot :: base64urlEncode (List.replicate 32 0)), ?_⟩
    decide +kernel
  obtain ⟨token, htoken⟩ := hok
  have hverify := hissued zeroDigests rootShadow (.error .noent) (str "root") (str "pw") 0 1024 token
    631152000 (by decide +kernel) (by decide +kernel) htoken (by decide +kernel) (by decide)
    (by decide) rootShadow (.error .noent) 631151999 rfl (by decide)
  obtain ⟨claims, -, hsigned, -⟩ := haccepted _ _ _ _ hverify
  exact ⟨token, htoken, hverify, claims, hsigned⟩

end MagiTrickle.Auth
