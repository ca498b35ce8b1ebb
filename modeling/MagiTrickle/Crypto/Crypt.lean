import MagiTrickle.Crypto.Base64
import MagiTrickle.Crypto.Digest
import MagiTrickle.Lib.Words

/-!
# Password hashes (`crypto/crypt.c`)

MD5, SHA-256 and SHA-512 are the parameter `Digests`: a context that was fed in
pieces gives the digest of their concatenation. `cryptPassword_fixed` says that
a hash is a setting that gives the same hash.
-/

namespace MagiTrickle.Crypto

/-! ## Parameters -/

structure Digests where
  md5 : Bytes → Buffer 16
  sha256 : Bytes → Buffer 32
  sha512 : Bytes → Buffer 64

/-- `sha_ops_t`. -/
structure ShaOps where
  digestSize : Nat
  digest : Bytes → Buffer digestSize

/-- `SHA256_OPS`. -/
def Digests.sha256Ops (d : Digests) : ShaOps := ⟨32, d.sha256⟩

/-- `SHA512_OPS`. -/
def Digests.sha512Ops (d : Digests) : ShaOps := ⟨64, d.sha512⟩

/-! ## Settings -/

/-- `$`. -/
abbrev dollar : UInt8 := 36

/-- `MD5_PREFIX`. -/
def md5Prefix : Bytes := str "$1$"

/-- `SHA256_PREFIX`. -/
def sha256Prefix : Bytes := str "$5$"

/-- `SHA512_PREFIX`. -/
def sha512Prefix : Bytes := str "$6$"

/-- `SHA_ROUNDS_MIN`. -/
def shaRoundsMin : Int := 1000

/-- `SHA_ROUNDS_MAX`. -/
def shaRoundsMax : Int := 999999999

/-- `SHA_ROUNDS_DEFAULT`. -/
def shaRoundsDefault : Int := 5000

/-- `MAX_PASSWORD_LEN`. -/
def maxPasswordLen : Nat := 4096

/-- `split_dollar`, into at most `MAX_SALT_TOKS` pieces. -/
def splitDollar (s : Bytes) : List Bytes := (s.splitOn dollar).take 8

/-- `extract_salt`. -/
def extractSalt (pre salt : Bytes) (maxLen : Nat) : Except Err Bytes :=
  if !pre.isPrefixOf salt then .error .inval
  else
    match splitDollar salt with
    | _ :: _ :: tok :: _ => .ok (tok.take maxLen)
    | _ => .error .inval

/-- What `extract_salt_and_rounds` finds in a setting. -/
structure Setting where
  salt : Bytes
  rounds : Int
  custom : Bool
  deriving DecidableEq, Repr

/-- `extract_salt_and_rounds`. -/
def extractSaltAndRounds (pre salt : Bytes) : Except Err Setting :=
  if !pre.isPrefixOf salt then .error .inval
  else
    match splitDollar salt with
    | _ :: _ :: payload :: rest =>
      if payload.length > 7 ∧ (str "rounds=").isPrefixOf payload then
        let digits := payload.drop 7
        if digits.length = 0 ∨ digits.length ≥ 32 then .error .inval
        else
          match Libc.strtol digits with
          | some (v, []) =>
            let v := if v < shaRoundsMin then shaRoundsMin else v
            let v := if v > shaRoundsMax then shaRoundsMax else v
            match rest with
            | [] => .error .inval
            | payload :: _ => .ok ⟨payload.take 16, v, true⟩
          | _ => .error .inval
      else .ok ⟨payload.take 16, shaRoundsDefault, false⟩
    | _ => .error .inval

/-! ## Hashing -/

/-- `b64_alphabet`. -/
def b64Alphabet : Bytes := str "./0123456789ABCDEFGHIJKLMNOPQRSTUVWXYZabcdefghijklmnopqrstuvwxyz"

/-- `base64_24bit`. -/
def base64_24bit : Bytes → Bytes
  | a :: b :: c :: src =>
    let v := a.toUInt32 ||| (b.toUInt32 <<< 8) ||| (c.toUInt32 <<< 16)
    sextet b64Alphabet v 0 :: sextet b64Alphabet v 6 :: sextet b64Alphabet v 12 ::
      sextet b64Alphabet v 18 :: base64_24bit src
  | [a, b] =>
    let v := a.toUInt32 ||| (b.toUInt32 <<< 8)
    [sextet b64Alphabet v 0, sextet b64Alphabet v 6, sextet b64Alphabet v 12]
  | [a] => [sextet b64Alphabet a.toUInt32 0, sextet b64Alphabet a.toUInt32 6]
  | [] => []

/-- The first `n` bytes of a digest that is written again and again. -/
def stretch (size : Nat) (sum : Bytes) (n : Nat) : Bytes :=
  if 0 < size ∧ size < n then sum ++ stretch size sum (n - size) else sum.take n
termination_by n

/-- What the loop over the bits of a length feeds to a digest. -/
def bits (odd even : Bytes) (i : Nat) : Bytes :=
  if i = 0 then [] else (if i % 2 = 1 then odd else even) ++ bits odd even (i / 2)
termination_by i

/-- `md5_crypt` up to the digest. -/
def md5Sum (d : Digests) (key salt : Bytes) : Bytes :=
  let altSum := (d.md5 (key ++ salt ++ key)).1
  let csum := (d.md5 (key ++ md5Prefix ++ salt ++ stretch 16 altSum key.length ++
    bits [0] (key.take 1) key.length)).1
  (List.range 1000).foldl
    (fun csum i => (d.md5 ((if i % 2 = 1 then key else csum) ++ (if i % 3 ≠ 0 then salt else []) ++
      (if i % 7 ≠ 0 then key else []) ++ if i % 2 = 0 then key else csum)).1)
    csum

def md5Reorder : List Nat := [12, 6, 0, 13, 7, 1, 14, 8, 2, 15, 9, 3, 5, 10, 4, 11]

/-- `md5_crypt`. -/
def md5Crypt (d : Digests) (password salt : Bytes) (outLen : Nat) : Except Err Bytes := do
  let tok ← extractSalt md5Prefix salt 8
  if password.length > maxPasswordLen then .error .limit
  else
    let csum := md5Sum d password tok
    let reordered := md5Reorder.map fun i => csum.getD i 0
    if outLen < md5Prefix.length + tok.length + 1 + 22 + 1 then .error .limit
    else .ok (md5Prefix ++ tok ++ dollar :: base64_24bit reordered)

/-- `sha_crypt` up to the digest. -/
def shaSum (ops : ShaOps) (key salt : Bytes) (rounds : Int) : Bytes :=
  let altSum := (ops.digest (key ++ salt ++ key)).1
  let asum := (ops.digest (key ++ salt ++ stretch ops.digestSize altSum key.length ++
    bits altSum key key.length)).1
  let psum := (ops.digest (List.replicate key.length key).flatten).1
  let pseq := stretch ops.digestSize psum key.length
  let ssum := (ops.digest (List.replicate (16 + (asum.getD 0 0).toNat) salt).flatten).1
  let sseq := stretch ops.digestSize ssum salt.length
  (List.range rounds.toNat).foldl
    (fun csum i => (ops.digest ((if i % 2 = 1 then pseq else csum) ++
      (if i % 3 ≠ 0 then sseq else []) ++ (if i % 7 ≠ 0 then pseq else []) ++
      if i % 2 = 1 then csum else pseq)).1)
    asum

/-- `SHA256_REORDER`. -/
def sha256Reorder : List Nat :=
  [20, 10, 0, 11, 1, 21, 2, 22, 12, 23, 13, 3, 14, 4, 24, 5,
    25, 15, 26, 16, 6, 17, 7, 27, 8, 28, 18, 29, 19, 9, 30, 31]

/-- `SHA512_REORDER`. -/
def sha512Reorder : List Nat :=
  [42, 21, 0, 1, 43, 22, 23, 2, 44, 45, 24, 3, 4, 46, 25, 26,
    5, 47, 48, 27, 6, 7, 49, 28, 29, 8, 50, 51, 30, 9, 10, 52,
    31, 32, 11, 53, 54, 33, 12, 13, 55, 34, 35, 14, 56, 57, 36, 15,
    16, 58, 37, 38, 17, 59, 60, 39, 18, 19, 61, 40, 41, 20, 62, 63]

/-- `rounds_buf`. -/
def roundsBuf (t : Setting) : Bytes :=
  if t.custom then str "rounds=" ++ Libc.formatInt t.rounds ++ [dollar] else []

/-- `sha_crypt`. -/
def shaCrypt (password salt pre : Bytes) (ops : ShaOps) (reorder : List Nat) (outLen : Nat) :
    Except Err Bytes := do
  let t ← extractSaltAndRounds pre salt
  if password.length > maxPasswordLen then .error .limit
  else
    let csum := shaSum ops password t.salt t.rounds
    let reordered := (List.range ops.digestSize).map fun i => csum.getD (reorder.getD i 0) 0
    let b64Len := base64EncodedLen ops.digestSize
    if outLen < pre.length + (roundsBuf t).length + t.salt.length + 1 + b64Len + 1 then .error .limit
    else .ok (pre ++ roundsBuf t ++ t.salt ++ dollar :: base64_24bit reordered)

/-- `mt_crypt_password`. -/
def cryptPassword (d : Digests) (password salt : Bytes) (outLen : Nat) : Except Err Bytes :=
  if md5Prefix.isPrefixOf salt then md5Crypt d password salt outLen
  else if sha256Prefix.isPrefixOf salt then
    shaCrypt password salt sha256Prefix d.sha256Ops sha256Reorder outLen
  else if sha512Prefix.isPrefixOf salt then
    shaCrypt password salt sha512Prefix d.sha512Ops sha512Reorder outLen
  else .error .inval

/-! ## Pieces of a setting -/

theorem splitOn_dollar {w rest : Bytes} (h : dollar ∉ w) :
    (w ++ dollar :: rest).splitOn dollar = w :: rest.splitOn dollar :=
  List.splitOn_append_cons_self_of_not_mem h ..

/-- A prefix of a setting: a character between two dollars. -/
def IsPrefix (pre : Bytes) : Prop := ∃ c, c ≠ dollar ∧ pre = [dollar, c, dollar]

theorem isPrefix_md5 : IsPrefix md5Prefix := ⟨49, by decide, by decide +kernel⟩

theorem isPrefix_sha256 : IsPrefix sha256Prefix := ⟨53, by decide, by decide +kernel⟩

theorem isPrefix_sha512 : IsPrefix sha512Prefix := ⟨54, by decide, by decide +kernel⟩

section Pieces

variable {pre : Bytes}

theorem splitDollar_pre (h : IsPrefix pre) (rest : Bytes) :
    ∃ c, splitDollar (pre ++ rest) = [] :: [c] :: (rest.splitOn dollar).take 6 := by
  obtain ⟨c, hc, rfl⟩ := h
  refine ⟨c, ?_⟩
  have hfirst : ([dollar, c, dollar] ++ rest).splitOn dollar =
      [] :: (c :: dollar :: rest).splitOn dollar :=
    splitOn_dollar (w := []) List.not_mem_nil
  have hsecond : (c :: dollar :: rest).splitOn dollar = [c] :: rest.splitOn dollar :=
    splitOn_dollar (w := [c]) (by simpa using hc.symm)
  rw [splitDollar, hfirst, hsecond]
  rfl

theorem isPrefixOf_append (pre rest : Bytes) : pre.isPrefixOf (pre ++ rest) = true :=
  List.isPrefixOf_iff_prefix.mpr (List.prefix_append ..)

theorem not_mem_splitDollar {s tok : Bytes} (h : tok ∈ splitDollar s) : dollar ∉ tok := by
  intro hmem
  have hsep := Lib.Words.not_sep_of_mem_splitOnP (List.mem_of_mem_take h) dollar hmem
  simp at hsep

theorem splitDollar_salt (h : IsPrefix pre) {salt : Bytes} (hsalt : dollar ∉ salt) (rest : Bytes) :
    ∃ c, splitDollar (pre ++ (salt ++ dollar :: rest)) =
      [] :: [c] :: salt :: (rest.splitOn dollar).take 5 := by
  obtain ⟨c, hc⟩ := splitDollar_pre h (salt ++ dollar :: rest)
  refine ⟨c, ?_⟩
  rw [hc, splitOn_dollar hsalt]
  rfl

theorem extractSalt_again (h : IsPrefix pre) {salt tok : Bytes} {maxLen : Nat}
    (hsalt : extractSalt pre salt maxLen = .ok tok) (rest : Bytes) :
    tok.length ≤ maxLen ∧ extractSalt pre (pre ++ tok ++ dollar :: rest) maxLen = .ok tok := by
  have htok : tok.length ≤ maxLen ∧ dollar ∉ tok := by
    unfold extractSalt at hsalt
    split at hsalt
    · cases hsalt
    · split at hsalt
      · rename_i payload _ hsplit
        cases hsalt
        have hmem : payload ∈ splitDollar salt := by
          rw [hsplit]
          exact List.mem_cons_of_mem _ (List.mem_cons_of_mem _ List.mem_cons_self)
        refine ⟨by rw [List.length_take]; omega, fun hd => ?_⟩
        exact not_mem_splitDollar hmem (List.mem_of_mem_take hd)
      · cases hsalt
  obtain ⟨hlen, hdollar⟩ := htok
  obtain ⟨c, hsplit⟩ := splitDollar_salt h hdollar rest
  refine ⟨hlen, ?_⟩
  rw [extractSalt, List.append_assoc, isPrefixOf_append, hsplit]
  show Except.ok (tok.take maxLen) = _
  rw [List.take_of_length_le hlen]

end Pieces

/-! ## Rounds -/

/-- A setting as `extract_salt_and_rounds` leaves it: a salt that is not read as rounds unless
rounds stand before it. -/
structure Canonical (t : Setting) : Prop where
  length : t.salt.length ≤ 16
  dollar : dollar ∉ t.salt
  min : shaRoundsMin ≤ t.rounds
  max : t.rounds ≤ shaRoundsMax
  default : t.custom = false → t.rounds = shaRoundsDefault ∧
    ¬(t.salt.length > 7 ∧ (str "rounds=").isPrefixOf t.salt)

theorem length_rounds : (str "rounds=").length = 7 := by decide +kernel

/-- What is cut off a payload that does not begin with `rounds=` does not hide it. -/
theorem not_rounds_take {payload : Bytes}
    (h : ¬(payload.length > 7 ∧ (str "rounds=").isPrefixOf payload)) :
    ¬((payload.take 16).length > 7 ∧ (str "rounds=").isPrefixOf (payload.take 16)) := by
  rintro ⟨hlen, hpre⟩
  rw [List.isPrefixOf_iff_prefix] at hpre
  rw [List.length_take] at hlen
  exact h ⟨by omega, List.isPrefixOf_iff_prefix.mpr (hpre.trans (List.take_prefix ..))⟩

theorem canonical_extract {pre salt : Bytes} {t : Setting}
    (h : extractSaltAndRounds pre salt = .ok t) : Canonical t := by
  unfold extractSaltAndRounds at h
  split at h
  · cases h
  split at h
  · rename_i payload rest hsplit
    have hmem {tok : Bytes} (htok : tok ∈ payload :: rest) : dollar ∉ tok := by
      refine not_mem_splitDollar (s := salt) ?_
      rw [hsplit]
      exact List.mem_cons_of_mem _ (List.mem_cons_of_mem _ htok)
    split at h
    · dsimp only at h
      split at h
      · cases h
      split at h
      · split at h
        · cases h
        · rename_i payload' rest'
          cases h
          refine ⟨by dsimp only; rw [List.length_take]; omega, fun hd => ?_, ?_, ?_, fun hc => ?_⟩
          · exact hmem (List.mem_cons_of_mem _ List.mem_cons_self) (List.mem_of_mem_take hd)
          · dsimp only [shaRoundsMin, shaRoundsMax]
            split_ifs <;> omega
          · dsimp only [shaRoundsMin, shaRoundsMax]
            split_ifs <;> omega
          · cases hc
      · cases h
    · rename_i hno
      cases h
      refine ⟨by dsimp only; rw [List.length_take]; omega, fun hd => ?_, ?_, ?_,
        fun _ => ⟨rfl, not_rounds_take hno⟩⟩
      · exact hmem List.mem_cons_self (List.mem_of_mem_take hd)
      · show shaRoundsMin ≤ shaRoundsDefault
        decide
      · show shaRoundsDefault ≤ shaRoundsMax
        decide
  · cases h

theorem formatInt_rounds {v : Int} (hmin : shaRoundsMin ≤ v) (hmax : v ≤ shaRoundsMax) :
    (∀ c ∈ Libc.formatInt v, Libc.isDigit c = true) ∧ 0 < (Libc.formatInt v).length ∧
      (Libc.formatInt v).length ≤ 9 := by
  unfold shaRoundsMin at hmin
  unfold shaRoundsMax at hmax
  rw [Libc.formatInt, if_neg (by omega)]
  exact ⟨Libc.isDigit_digits _, List.length_pos_of_ne_nil (Libc.digits_ne_nil _),
    Libc.length_digits_le (by decide) (by omega)⟩

theorem dollar_not_mem_rounds {v : Int} (hmin : shaRoundsMin ≤ v) (hmax : v ≤ shaRoundsMax) :
    dollar ∉ str "rounds=" ++ Libc.formatInt v := by
  intro hd
  rcases List.mem_append.mp hd with hd | hd
  · exact absurd hd (by decide +kernel)
  · exact absurd ((formatInt_rounds hmin hmax).1 _ hd) (by decide)

/-- A setting that is printed is read again. -/
theorem extract_again {pre : Bytes} (hpre : IsPrefix pre) {t : Setting} (h : Canonical t)
    (rest : Bytes) :
    extractSaltAndRounds pre (pre ++ roundsBuf t ++ t.salt ++ dollar :: rest) = .ok t := by
  obtain ⟨salt, rounds, custom⟩ := t
  obtain ⟨hlen, hdollar, hmin, hmax, hdefault⟩ := h
  dsimp only at hlen hdollar hmin hmax hdefault
  have htake : salt.take 16 = salt := List.take_of_length_le hlen
  cases custom with
  | false =>
    obtain ⟨rfl, hno⟩ := hdefault rfl
    obtain ⟨c, hsplit⟩ := splitDollar_salt hpre hdollar rest
    have htext : pre ++ roundsBuf ⟨salt, shaRoundsDefault, false⟩ ++ salt ++ dollar :: rest =
        pre ++ (salt ++ dollar :: rest) := by
      rw [roundsBuf, if_neg Bool.false_ne_true, List.append_nil, List.append_assoc]
    rw [htext, extractSaltAndRounds, isPrefixOf_append, hsplit]
    simp only [Bool.not_true, Bool.false_eq_true, if_false]
    rw [if_neg hno, htake]
  | true =>
    obtain ⟨hdigits, hpos, hle⟩ := formatInt_rounds hmin hmax
    have htext : pre ++ roundsBuf ⟨salt, rounds, true⟩ ++ salt ++ dollar :: rest =
        pre ++ (str "rounds=" ++ Libc.formatInt rounds ++ dollar :: (salt ++ dollar :: rest)) := by
      rw [roundsBuf, if_pos rfl]
      simp
    obtain ⟨c, hsplit⟩ := splitDollar_salt hpre (dollar_not_mem_rounds hmin hmax)
      (salt ++ dollar :: rest)
    rw [splitOn_dollar hdollar, List.take_succ_cons] at hsplit
    have hpayload : (str "rounds=" ++ Libc.formatInt rounds).length > 7 := by
      rw [List.length_append, length_rounds]
      omega
    have hdrop : (str "rounds=" ++ Libc.formatInt rounds).drop 7 = Libc.formatInt rounds := by
      rw [← length_rounds, List.drop_left]
    have hmin' : ¬rounds < shaRoundsMin := by omega
    have hmax' : ¬rounds > shaRoundsMax := by omega
    rw [htext, extractSaltAndRounds, isPrefixOf_append, hsplit]
    simp only [Bool.not_true, Bool.false_eq_true, if_false]
    rw [if_pos ⟨hpayload, isPrefixOf_append _ _⟩, hdrop, if_neg (by omega),
      Libc.strtol_formatInt (by unfold shaRoundsMin at hmin; omega)]
    simp only [if_neg hmin', if_neg hmax', htake]

/-! ## Hashes as settings -/

theorem length_base64_24bit (src : Bytes) :
    (base64_24bit src).length = base64urlEncodedLen src.length := by
  induction src using base64_24bit.induct with
  | case1 a b c src ih =>
    rw [base64_24bit]
    simp only [List.length_cons, ih, base64urlEncodedLen]
    split_ifs <;> omega
  | case2 a b => simp [base64_24bit, base64urlEncodedLen]
  | case3 a => simp [base64_24bit, base64urlEncodedLen]
  | case4 => rfl

theorem length_pre {pre : Bytes} (h : IsPrefix pre) : pre.length = 3 := by
  obtain ⟨c, -, rfl⟩ := h
  rfl

theorem length_roundsBuf {t : Setting} (h : Canonical t) : (roundsBuf t).length ≤ 17 := by
  have hdigits := formatInt_rounds h.min h.max
  unfold roundsBuf
  split
  · rw [List.length_append, List.length_append, length_rounds, List.length_singleton]
    omega
  · exact Nat.zero_le _

section Again

variable {d : Digests} {password salt out : Bytes} {outLen : Nat}

theorem md5Crypt_again (h : md5Crypt d password salt outLen = .ok out) :
    md5Crypt d password out outLen = .ok out ∧ (∃ rest, out = md5Prefix ++ rest) ∧
      out.length < outLen ∧ out.length < 128 := by
  unfold md5Crypt at h
  cases hsalt : extractSalt md5Prefix salt 8 with
  | error e =>
    rw [hsalt] at h
    cases h
  | ok tok =>
    rw [hsalt] at h
    change (if _ then _ else _) = _ at h
    split at h
    · cases h
    rename_i hpassword
    split at h
    · cases h
    rename_i hfits
    obtain ⟨hlen, hagain⟩ := extractSalt_again isPrefix_md5 hsalt
      (base64_24bit (md5Reorder.map fun i => (md5Sum d password tok).getD i 0))
    have hhash : (base64_24bit (md5Reorder.map fun i => (md5Sum d password tok).getD i 0)).length =
        22 := by
      rw [length_base64_24bit, List.length_map]
      rfl
    have hprefix : md5Prefix.length = 3 := by decide +kernel
    have hout : (md5Prefix ++ tok ++ dollar ::
        base64_24bit (md5Reorder.map fun i => (md5Sum d password tok).getD i 0)).length =
        3 + tok.length + 23 := by
      rw [List.length_append, List.length_append, List.length_cons, hhash, hprefix]
    cases h
    refine ⟨?_, ⟨_, List.append_assoc ..⟩, by rw [hout]; omega, by rw [hout]; omega⟩
    unfold md5Crypt
    rw [hagain]
    show (if _ then _ else _) = _
    rw [if_neg hpassword, if_neg hfits]

theorem shaCrypt_again {pre : Bytes} {ops : ShaOps} {reorder : List Nat} (hpre : IsPrefix pre)
    (hsize : ops.digestSize ≤ 64) (h : shaCrypt password salt pre ops reorder outLen = .ok out) :
    shaCrypt password out pre ops reorder outLen = .ok out ∧ (∃ rest, out = pre ++ rest) ∧
      out.length < outLen ∧ out.length < 128 := by
  unfold shaCrypt at h
  cases hsetting : extractSaltAndRounds pre salt with
  | error e =>
    rw [hsetting] at h
    cases h
  | ok t =>
    rw [hsetting] at h
    change (if _ then _ else _) = _ at h
    split at h
    · cases h
    rename_i hpassword
    split at h
    · cases h
    rename_i hfits
    have hcanonical := canonical_extract hsetting
    have hagain := extract_again hpre hcanonical (base64_24bit ((List.range ops.digestSize).map
      fun i => (shaSum ops password t.salt t.rounds).getD (reorder.getD i 0) 0))
    have hhash := length_base64_24bit ((List.range ops.digestSize).map
      fun i => (shaSum ops password t.salt t.rounds).getD (reorder.getD i 0) 0)
    rw [List.length_map, List.length_range] at hhash
    have hb64 : base64urlEncodedLen ops.digestSize ≤ base64EncodedLen ops.digestSize ∧
        base64urlEncodedLen ops.digestSize ≤ 86 := by
      unfold base64urlEncodedLen base64EncodedLen
      dsimp only
      split_ifs <;> omega
    have hout : (pre ++ roundsBuf t ++ t.salt ++ dollar :: base64_24bit
        ((List.range ops.digestSize).map
          fun i => (shaSum ops password t.salt t.rounds).getD (reorder.getD i 0) 0)).length =
        pre.length + (roundsBuf t).length + t.salt.length + 1 +
          base64urlEncodedLen ops.digestSize := by
      rw [List.length_append, List.length_append, List.length_append, List.length_cons, hhash]
      omega
    have hrounds := length_roundsBuf hcanonical
    have hprefix := length_pre hpre
    have hsalt := hcanonical.length
    cases h
    refine ⟨?_, ⟨_, by rw [List.append_assoc, List.append_assoc]⟩, by rw [hout]; omega,
      by rw [hout]; omega⟩
    unfold shaCrypt
    rw [hagain]
    show (if _ then _ else _) = _
    rw [if_neg hpassword, if_neg hfits]

/-- The text of a hash tells which function made it. -/
theorem isPrefixOf_of_append {pre pre' rest : Bytes} (h : IsPrefix pre) (h' : IsPrefix pre') :
    pre'.isPrefixOf (pre ++ rest) = true ↔ pre' = pre := by
  rw [List.isPrefixOf_iff_prefix]
  constructor
  · intro hpre
    refine (List.prefix_of_prefix_length_le hpre (List.prefix_append pre rest) ?_).eq_of_length ?_
    · rw [length_pre h, length_pre h']
    · rw [length_pre h, length_pre h']
  · rintro rfl
    exact List.prefix_append ..

theorem cryptPassword_again (h : cryptPassword d password salt outLen = .ok out) :
    cryptPassword d password out outLen = .ok out ∧ out.length < outLen ∧ out.length < 128 := by
  have h51 : md5Prefix ≠ sha256Prefix := by decide +kernel
  have h61 : md5Prefix ≠ sha512Prefix := by decide +kernel
  have h65 : sha256Prefix ≠ sha512Prefix := by decide +kernel
  unfold cryptPassword at h
  split at h
  · obtain ⟨hagain, ⟨rest, rfl⟩, hfits, hlt⟩ := md5Crypt_again h
    refine ⟨?_, hfits, hlt⟩
    rw [cryptPassword, if_pos (isPrefixOf_append ..), hagain]
  split at h
  · obtain ⟨hagain, ⟨rest, rfl⟩, hfits, hlt⟩ := shaCrypt_again isPrefix_sha256
      (show 32 ≤ 64 by decide) h
    refine ⟨?_, hfits, hlt⟩
    rw [cryptPassword, if_neg fun hpre => h51 ((isPrefixOf_of_append isPrefix_sha256
      isPrefix_md5).mp hpre), if_pos (isPrefixOf_append ..), hagain]
  split at h
  · obtain ⟨hagain, ⟨rest, rfl⟩, hfits, hlt⟩ := shaCrypt_again isPrefix_sha512
      (show 64 ≤ 64 by decide) h
    refine ⟨?_, hfits, hlt⟩
    rw [cryptPassword, if_neg fun hpre => h61 ((isPrefixOf_of_append isPrefix_sha512
      isPrefix_md5).mp hpre), if_neg fun hpre => h65 ((isPrefixOf_of_append isPrefix_sha512
      isPrefix_sha256).mp hpre), if_pos (isPrefixOf_append ..), hagain]
  · cases h

/-! ## Room for a hash -/

theorem md5Crypt_ne_limit (hpassword : password.length ≤ maxPasswordLen) :
    md5Crypt d password salt 128 ≠ .error .limit := by
  intro h
  unfold md5Crypt at h
  cases hsalt : extractSalt md5Prefix salt 8 with
  | error e =>
    rw [hsalt] at h
    have he : e = .inval := by
      unfold extractSalt at hsalt
      split at hsalt
      · cases hsalt
        rfl
      · split at hsalt
        · cases hsalt
        · cases hsalt
          rfl
    rw [he] at h
    cases h
  | ok tok =>
    have hlen := (extractSalt_again isPrefix_md5 hsalt []).1
    have hprefix := length_pre isPrefix_md5
    rw [hsalt] at h
    change (if _ then _ else _) = _ at h
    rw [if_neg (by omega), if_neg (by omega)] at h
    cases h

theorem extractSaltAndRounds_inval {pre : Bytes} {e : Err}
    (h : extractSaltAndRounds pre salt = .error e) : e = .inval := by
  unfold extractSaltAndRounds at h
  dsimp only at h
  split at h
  · cases h
    rfl
  split at h
  · split at h
    · split at h
      · cases h
        rfl
      split at h
      · split at h <;> cases h
        rfl
      · cases h
        rfl
    · cases h
  · cases h
    rfl

theorem shaCrypt_ne_limit {pre : Bytes} {ops : ShaOps} {reorder : List Nat} (hpre : IsPrefix pre)
    (hsize : ops.digestSize ≤ 64) (hpassword : password.length ≤ maxPasswordLen) :
    shaCrypt password salt pre ops reorder 128 ≠ .error .limit := by
  intro h
  unfold shaCrypt at h
  cases hsetting : extractSaltAndRounds pre salt with
  | error e =>
    rw [hsetting, extractSaltAndRounds_inval hsetting] at h
    cases h
  | ok t =>
    have hcanonical := canonical_extract hsetting
    have hlen := hcanonical.length
    have hrounds := length_roundsBuf hcanonical
    have hprefix := length_pre hpre
    have hb64 : base64EncodedLen ops.digestSize ≤ 88 := by
      unfold base64EncodedLen
      omega
    rw [hsetting] at h
    change (if _ then _ else _) = _ at h
    rw [if_neg (by omega), if_neg (by omega)] at h
    cases h

theorem cryptPassword_ne_limit (hpassword : password.length ≤ maxPasswordLen) :
    cryptPassword d password salt 128 ≠ .error .limit := by
  unfold cryptPassword
  split
  · exact md5Crypt_ne_limit hpassword
  split
  · exact shaCrypt_ne_limit isPrefix_sha256 (show 32 ≤ 64 by decide) hpassword
  split
  · exact shaCrypt_ne_limit isPrefix_sha512 (show 64 ≤ 64 by decide) hpassword
  · exact fun h => nomatch h

end Again

/-- A hash is accepted as a setting for its password and gives itself; it fits a buffer of 128
bytes, which is room enough for every hash. -/
theorem cryptPassword_fixed (d : Digests) (password : Bytes) :
    (∀ setting outLen out, cryptPassword d password setting outLen = .ok out →
      cryptPassword d password out outLen = .ok out ∧ out.length < outLen ∧ out.length < 128) ∧
    (password.length ≤ maxPasswordLen →
      ∀ setting, cryptPassword d password setting 128 ≠ .error .limit) :=
  ⟨fun _ _ _ => cryptPassword_again, fun hpassword _ => cryptPassword_ne_limit hpassword⟩

def zeroDigests : Digests :=
  ⟨fun _ => ⟨List.replicate 16 0, rfl⟩, fun _ => ⟨List.replicate 32 0, rfl⟩,
    fun _ => ⟨List.replicate 64 0, rfl⟩⟩

theorem cryptPassword_fixed_md5 : ∃ out, cryptPassword zeroDigests (str "pw") (str "$1$ab") 128 =
    .ok out ∧ cryptPassword zeroDigests (str "pw") out 128 = .ok out ∧ out.length < 128 ∧
      cryptPassword zeroDigests (str "pw") (str "$6$ab") 128 ≠ .error .limit := by
  obtain ⟨hfixed, hroom⟩ := cryptPassword_fixed zeroDigests (str "pw")
  have hsalt : extractSalt md5Prefix (str "$1$ab") 8 = .ok (str "ab") := by decide +kernel
  have hok : ∃ out, cryptPassword zeroDigests (str "pw") (str "$1$ab") 128 = .ok out := by
    refine ⟨md5Prefix ++ str "ab" ++ dollar :: base64_24bit (md5Reorder.map fun i =>
      (md5Sum zeroDigests (str "pw") (str "ab")).getD i 0), ?_⟩
    rw [cryptPassword, if_pos (by decide +kernel), md5Crypt, hsalt]
    simp only [bind, Except.bind]
    rw [if_neg (by decide +kernel), if_neg (by decide +kernel)]
  obtain ⟨out, hout⟩ := hok
  obtain ⟨hagain, -, hlt⟩ := hfixed _ _ _ hout
  exact ⟨out, hout, hagain, hlt, hroom (by decide +kernel) _⟩

end MagiTrickle.Crypto
