import MagiTrickle.Crypto.Jwt

/-!
# The application secret (`load_or_create_secret` of `api/auth.c`)

`SecretDir` is what the system answers to the calls of the function. The decoder
has no bound for its output: `base64_stays_inside_iff` says for which contents
of the secret file it stays inside the buffer that it is given here.
-/

namespace MagiTrickle.Auth

open Crypto

/-! ## The function -/

/-- `MT_AUTH_SECRET_LEN`. -/
def secretLen : Nat := 32

/-- The size of `decoded`. -/
def decodedLen : Nat := 64

inductive SecretFile where
  | content (bytes : Bytes)
  | missing
  | failed (e : Err)
  deriving DecidableEq, Repr

/-- What the system answers: whether the path fits its buffer, the file, 32 random bytes, and how
making the directory, making the file and writing so many bytes to it end. -/
structure SecretDir where
  pathFits : Bool
  file : SecretFile
  random : Option Digest
  mkdir : Except Err Unit
  create : Except Err Unit
  write : Bytes → Bool

/-- The text between the blanks of the first 255 bytes. -/
def secretText (content : Bytes) : Bytes :=
  ((content.take 255).dropWhile Libc.isSpace).rdropWhile Libc.isSpace

/-- What the decoder writes to `decoded`. -/
def decoded (content : Bytes) : Bytes := (base64Decode (secretText content)).1

/-- The part of `load_or_create_secret` that reads the file. -/
def readSecret (content : Bytes) : Except Err Bytes :=
  let text := secretText content
  if text = [] then .error .inval
  else
    let (decoded, ok) := base64Decode text
    if !ok then .error .inval
    else .ok (decoded.take secretLen)

/-- `load_or_create_secret`: the secret, and the text written to a new file. -/
def loadOrCreateSecret (dir : SecretDir) : Except Err (Bytes × Option Bytes) :=
  if !dir.pathFits then .error .inval
  else
    match dir.file with
    | .content bytes => (readSecret bytes).map (·, none)
    | .failed e => .error e
    | .missing =>
      match dir.random with
      | none => .error .sys
      | some secret => do
        let encoded := base64Encode secret.1
        dir.mkdir
        dir.create
        if !dir.write encoded then .error .io else .ok (secret.1, some encoded)

/-! ## A secret that was written -/

theorem isSpace_of_mem_encode {data : Bytes} {c : UInt8} (h : c ∈ base64Encode data) :
    Libc.isSpace c = false := by
  have hstd : ∀ c ∈ stdAlphabet, Libc.isSpace c = false := by decide +kernel
  rw [base64Encode, encodeCore_eq, List.mem_append] at h
  rcases h with h | h
  · exact hstd c (mem_encodeCore isAlphabet_std h)
  · rw [padding, if_pos rfl] at h
    rw [List.eq_of_mem_replicate h]
    rfl

theorem secretText_encode {data : Bytes} (h : base64EncodedLen data.length ≤ 255) :
    secretText (base64Encode data) = base64Encode data := by
  have hlen : (base64Encode data).length ≤ 255 := by
    rw [base64Encode, length_encodeCore]
    exact h
  have hdrop : (base64Encode data).dropWhile Libc.isSpace = base64Encode data := by
    cases hd : base64Encode data with
    | nil => rfl
    | cons c text =>
      refine List.dropWhile_cons_of_neg ?_
      rw [@isSpace_of_mem_encode data c (by rw [hd]; exact List.mem_cons_self)]
      decide
  rw [secretText, List.take_of_length_le hlen, hdrop, List.rdropWhile_eq_self_iff]
  intro hne
  rw [isSpace_of_mem_encode (List.getLast_mem hne)]
  decide

/-- The secret that a first run makes is the one that later runs read. -/
theorem readSecret_written {dir : SecretDir} {secret text : Bytes}
    (h : loadOrCreateSecret dir = .ok (secret, some text)) : readSecret text = .ok secret := by
  unfold loadOrCreateSecret at h
  split at h
  · cases h
  split at h
  · rename_i bytes _
    cases hr : readSecret bytes <;> rw [hr] at h <;> cases h
  · cases h
  split at h
  · cases h
  rename_i mac hrandom
  have htext : text = base64Encode mac.1 ∧ secret = mac.1 := by
    cases hm : dir.mkdir <;> cases hc : dir.create <;> rw [hm, hc] at h <;>
      simp only [bind, Except.bind] at h <;> try cases h
    split at h <;> cases h
    exact ⟨rfl, rfl⟩
  obtain ⟨rfl, rfl⟩ := htext
  have hlen : base64EncodedLen mac.1.length = 44 := by
    rw [mac.2]
    rfl
  have hne : base64Encode mac.1 ≠ [] := by
    intro hnil
    have hzero := @length_encodeCore stdAlphabet true mac.1
    rw [if_pos rfl, hlen, ← base64Encode, hnil] at hzero
    cases hzero
  have hround : base64Decode (base64Encode mac.1) = (mac.1, true) :=
    decodeCore_encodeCore isAlphabet_std true mac.1
  rw [readSecret, secretText_encode (by omega), if_neg hne, hround]
  simp only [Bool.not_true, Bool.false_eq_true, if_false]
  rw [secretLen, List.take_of_length_le mac.2.le]

/-! ## Buffers -/

/-- The text in the secret file begins with at most 86 characters of the alphabet. -/
def SecretFits (content : Bytes) : Prop :=
  (((secretText content).rdropWhile (· == 61)).takeWhile (· ∈ stdAlphabet)).length ≤ 86

theorem length_decoded_le_iff (content : Bytes) :
    (decoded content).length ≤ decodedLen ↔ SecretFits content := by
  rw [decoded, base64Decode, length_decodeCore isAlphabet_std, decodedLen, SecretFits]
  omega

/-- Decoding undoes encoding and the texts have the lengths that are announced; the decoder stays
inside the buffer for the claims of every token; and it stays inside the buffer for the secret file
exactly when the text of the file begins with at most 86 characters of the alphabet. -/
theorem base64_stays_inside_iff (data token p1 p2 p3 content : Bytes) :
    (base64Decode (base64Encode data) = (data, true) ∧
      (base64Encode data).length = base64EncodedLen data.length) ∧
    (base64urlDecode (base64urlEncode data) = (data, true) ∧
      (base64urlEncode data).length = base64urlEncodedLen data.length) ∧
    (splitToken token = .ok (p1, p2, p3) →
      (base64urlDecode p2).1.length ≤ decodedCap p2.length) ∧
    ((decoded content).length ≤ decodedLen ↔ SecretFits content) := by
  refine ⟨⟨decodeCore_encodeCore isAlphabet_std true data, length_encodeCore true data⟩,
    ⟨decodeCore_encodeCore isAlphabet_url false data, length_encodeCore false data⟩,
    fun _ => ?_, length_decoded_le_iff content⟩
  have hle := length_decodeCore_le isAlphabet_url p2
  rw [base64urlDecode, decodedCap]
  omega

theorem base64_stays_inside_iff_token :
    splitToken (str "a.AAAA.b") = .ok (str "a", str "AAAA", str "b") ∧
      (base64urlDecode (str "AAAA")).1.length ≤ decodedCap 4 :=
  ⟨by decide +kernel, (base64_stays_inside_iff [] (str "a.AAAA.b") (str "a") (str "AAAA") (str "b")
    []).2.2.1 (by decide +kernel)⟩

/-- A secret file that holds 66 bytes. -/
theorem longSecret_overflows : base64Decode (secretText (List.replicate 88 65)) =
    (List.replicate 66 0, true) ∧ ¬(decoded (List.replicate 88 65)).length ≤ decodedLen := by
  decide +kernel

end MagiTrickle.Auth
