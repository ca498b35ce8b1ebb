import MagiTrickle.Core.Libc
import Mathlib.Data.List.DropRight
import Mathlib.Data.List.GetD
import Mathlib.Tactic.Common

/-!
# Base64 (`crypto/base64.c`)

`decodeCore` yields the bytes it has written also where it fails: they are in
the caller's buffer then. Decoding undoes encoding (`decodeCore_encodeCore`),
and `length_decodeCore` says how many bytes the decoder writes.
-/

namespace MagiTrickle.Crypto

/-! ## The functions -/

/-- `std_alphabet`. -/
def stdAlphabet : Bytes := str "ABCDEFGHIJKLMNOPQRSTUVWXYZabcdefghijklmnopqrstuvwxyz0123456789+/"

/-- `url_alphabet`. -/
def urlAlphabet : Bytes := str "ABCDEFGHIJKLMNOPQRSTUVWXYZabcdefghijklmnopqrstuvwxyz0123456789-_"

/-- `mt_base64_encoded_len`. -/
def base64EncodedLen (inLen : Nat) : Nat := ((inLen + 2) / 3) * 4

/-- `mt_base64url_encoded_len`. -/
def base64urlEncodedLen (inLen : Nat) : Nat :=
  let full := inLen / 3
  let rem := inLen % 3
  let len := full * 4
  let len := if rem = 1 then len + 2 else len
  if rem = 2 then len + 3 else len

/-- `alphabet[(v >> shift) & 0x3f]`. -/
def sextet (alphabet : Bytes) (v shift : UInt32) : UInt8 :=
  alphabet.getD ((v >>> shift) &&& 0x3f).toNat 0

/-- `encode_core`: a turn of its loop takes three bytes. -/
def encodeCore (alphabet : Bytes) (pad : Bool) : Bytes → Bytes
  | a :: b :: c :: data =>
    let v := (a.toUInt32 <<< 16) ||| (b.toUInt32 <<< 8) ||| c.toUInt32
    sextet alphabet v 18 :: sextet alphabet v 12 :: sextet alphabet v 6 :: sextet alphabet v 0 ::
      encodeCore alphabet pad data
  | [a, b] =>
    let v := (a.toUInt32 <<< 16) ||| (b.toUInt32 <<< 8)
    [sextet alphabet v 18, sextet alphabet v 12, sextet alphabet v 6] ++ if pad then [61] else []
  | [a] =>
    let v := a.toUInt32 <<< 16
    [sextet alphabet v 18, sextet alphabet v 12] ++ if pad then [61, 61] else []
  | [] => []

/-- `mt_base64_encode`. -/
def base64Encode (data : Bytes) : Bytes := encodeCore stdAlphabet true data

/-- `mt_base64url_encode`. -/
def base64urlEncode (data : Bytes) : Bytes := encodeCore urlAlphabet false data

/-- `decode_char`. -/
def decodeChar (c : UInt8) (alphabet : Bytes) : Option UInt8 :=
  ((alphabet.take 64).findIdx? (· == c)).map UInt8.ofNat

/-- The loop of `decode_core`: the bytes it writes, and whether it reads the whole text. -/
def decodeLoop (alphabet : Bytes) : Bytes → UInt32 → Nat → Bytes × Bool
  | [], _, _ => ([], true)
  | c :: text, acc, bits =>
    match decodeChar c alphabet with
    | none => ([], false)
    | some v =>
      let acc := (acc <<< 6) ||| v.toUInt32
      let bits := bits + 6
      if bits ≥ 8 then
        let bits := bits - 8
        let rest := decodeLoop alphabet text acc bits
        (((acc >>> UInt32.ofNat bits) &&& 0xff).toUInt8 :: rest.1, rest.2)
      else decodeLoop alphabet text acc bits

/-- `decode_core`. -/
def decodeCore (text : Bytes) (alphabet : Bytes) : Bytes × Bool :=
  decodeLoop alphabet (text.rdropWhile (· == 61)) 0 0

/-- `mt_base64_decode`: what it writes, and its result. -/
def base64Decode (text : Bytes) : Bytes × Bool := decodeCore text stdAlphabet

/-- `mt_base64url_decode`. -/
def base64urlDecode (text : Bytes) : Bytes × Bool := decodeCore text urlAlphabet

/-! ## Alphabets -/

/-- Sixty-four different characters, none of them the one that pads. -/
structure IsAlphabet (alphabet : Bytes) : Prop where
  length : alphabet.length = 64
  nodup : alphabet.Nodup
  pad : 61 ∉ alphabet

theorem isAlphabet_std : IsAlphabet stdAlphabet :=
  ⟨by decide +kernel, by decide +kernel, by decide +kernel⟩

theorem isAlphabet_url : IsAlphabet urlAlphabet :=
  ⟨by decide +kernel, by decide +kernel, by decide +kernel⟩

section Alphabet

variable {alphabet : Bytes}

theorem decodeChar_isSome (h : IsAlphabet alphabet) (c : UInt8) :
    (decodeChar c alphabet).isSome = decide (c ∈ alphabet) := by
  rw [decodeChar, Option.isSome_map, List.take_of_length_le h.length.le, List.findIdx?_isSome,
    List.any_beq']
  exact List.contains_eq_mem ..

theorem decodeChar_getD (h : IsAlphabet alphabet) {i : Nat} (hi : i < 64) :
    decodeChar (alphabet.getD i 0) alphabet = some (UInt8.ofNat i) := by
  have hlt : i < alphabet.length := by rw [h.length]; exact hi
  have hidx : alphabet.findIdx? (fun c => c == alphabet[i]) = some i := by
    refine List.findIdx?_eq_some_iff_getElem.mpr ⟨hlt, beq_self_eq_true _, fun j hj => ?_⟩
    rw [beq_iff_eq]
    exact fun heq => hj.ne (h.nodup.getElem_inj_iff.mp heq)
  rw [decodeChar, List.take_of_length_le h.length.le, List.getD_eq_getElem _ _ hlt, hidx]
  rfl

theorem getD_mem (h : IsAlphabet alphabet) {i : Nat} (hi : i < 64) : alphabet.getD i 0 ∈ alphabet := by
  have hlt : i < alphabet.length := by rw [h.length]; exact hi
  rw [List.getD_eq_getElem _ _ hlt]
  exact List.getElem_mem hlt

end Alphabet

/-! ## Bits -/

theorem or_eq_add {m n k : Nat} (hm : 2 ^ k ∣ m) (hn : n < 2 ^ k) : m ||| n = m + n := by
  obtain ⟨q, rfl⟩ := hm
  rw [Nat.mul_comm, ← Nat.shiftLeft_eq, ← Nat.shiftLeft_add_eq_or_of_lt hn]

theorem toNat_group (a b c : UInt8) :
    ((a.toUInt32 <<< 16) ||| (b.toUInt32 <<< 8) ||| c.toUInt32).toNat =
      a.toNat * 65536 + b.toNat * 256 + c.toNat := by
  have ha := a.toNat_lt
  have hb := b.toNat_lt
  have hc := c.toNat_lt
  have ha16 : (a.toUInt32 <<< 16).toNat = a.toNat * 65536 := by
    rw [UInt32.toNat_shiftLeft, UInt8.toNat_toUInt32, show (16 : UInt32).toNat % 32 = 16 from rfl,
      Nat.shiftLeft_eq]
    omega
  have hb8 : (b.toUInt32 <<< 8).toNat = b.toNat * 256 := by
    rw [UInt32.toNat_shiftLeft, UInt8.toNat_toUInt32, show (8 : UInt32).toNat % 32 = 8 from rfl,
      Nat.shiftLeft_eq]
    omega
  have hab : a.toNat * 65536 ||| b.toNat * 256 = a.toNat * 65536 + b.toNat * 256 :=
    @or_eq_add _ _ 16 (by omega) (by omega)
  rw [UInt32.toNat_or, UInt32.toNat_or, ha16, hb8, UInt8.toNat_toUInt32, hab,
    @or_eq_add _ _ 8 (by omega) (by omega)]

theorem toNat_push (acc : UInt32) {x : Nat} (hx : x < 64) :
    ((acc <<< 6) ||| (UInt8.ofNat x).toUInt32).toNat = acc.toNat * 64 % 2 ^ 32 + x := by
  have hx' : (UInt8.ofNat x).toUInt32.toNat = x := by
    rw [UInt8.toNat_toUInt32, UInt8.toNat_ofNat_of_lt' (by rw [UInt8.size]; omega)]
  rw [UInt32.toNat_or, UInt32.toNat_shiftLeft, hx', show (6 : UInt32).toNat % 32 = 6 from rfl,
    Nat.shiftLeft_eq, @or_eq_add _ _ 6 (by omega) hx]

theorem toNat_emit (acc : UInt32) {k : Nat} (hk : k < 8) :
    ((acc >>> UInt32.ofNat k) &&& 0xff).toUInt8.toNat = acc.toNat / 2 ^ k % 256 := by
  have hk' : (UInt32.ofNat k).toNat % 32 = k := by
    rw [UInt32.toNat_ofNat_of_lt' (by rw [UInt32.size]; omega), Nat.mod_eq_of_lt (by omega)]
  rw [UInt32.toNat_toUInt8, UInt32.toNat_and, UInt32.toNat_shiftRight, hk',
    Nat.shiftRight_eq_div_pow, show (0xff : UInt32).toNat = 2 ^ 8 - 1 from rfl,
    Nat.and_two_pow_sub_one_eq_mod]
  omega

theorem toNat_sextet (v : UInt32) {k : Nat} (hk : k < 32) :
    ((v >>> UInt32.ofNat k) &&& 0x3f).toNat = v.toNat / 2 ^ k % 64 := by
  have hk' : (UInt32.ofNat k).toNat % 32 = k := by
    rw [UInt32.toNat_ofNat_of_lt' (by rw [UInt32.size]; omega), Nat.mod_eq_of_lt hk]
  rw [UInt32.toNat_and, UInt32.toNat_shiftRight, hk', Nat.shiftRight_eq_div_pow,
    show (0x3f : UInt32).toNat = 2 ^ 6 - 1 from rfl, Nat.and_two_pow_sub_one_eq_mod]

theorem sextet_eq (alphabet : Bytes) (v : UInt32) {k : Nat} (hk : k < 32) :
    sextet alphabet v (UInt32.ofNat k) = alphabet.getD (v.toNat / 2 ^ k % 64) 0 := by
  rw [sextet, toNat_sextet v hk]

section Sextet

variable (alphabet : Bytes) (v : UInt32)

theorem sextet_18 : sextet alphabet v 18 = alphabet.getD (v.toNat / 262144 % 64) 0 :=
  @sextet_eq alphabet v 18 (by decide)

theorem sextet_12 : sextet alphabet v 12 = alphabet.getD (v.toNat / 4096 % 64) 0 :=
  @sextet_eq alphabet v 12 (by decide)

theorem sextet_6 : sextet alphabet v 6 = alphabet.getD (v.toNat / 64 % 64) 0 :=
  @sextet_eq alphabet v 6 (by decide)

theorem sextet_0 : sextet alphabet v 0 = alphabet.getD (v.toNat % 64) 0 := by
  have h := @sextet_eq alphabet v 0 (by decide)
  rwa [Nat.pow_zero, Nat.div_one] at h

end Sextet

/-! ## Decoding what was encoded -/

section RoundTrip

variable {alphabet : Bytes} {text : Bytes} {acc : UInt32} {bits x : Nat}

theorem decodeLoop_keep (h : IsAlphabet alphabet) (hx : x < 64) (hbits : bits < 2) :
    decodeLoop alphabet (alphabet.getD x 0 :: text) acc bits =
      decodeLoop alphabet text ((acc <<< 6) ||| (UInt8.ofNat x).toUInt32) (bits + 6) := by
  rw [decodeLoop, decodeChar_getD h hx]
  exact if_neg (by omega)

theorem decodeLoop_emit (h : IsAlphabet alphabet) (hx : x < 64) (hbits : bits < 6) {b : UInt8}
    {data : Bytes} (hb : (acc.toNat * 64 % 2 ^ 32 + x) / 2 ^ bits % 256 = b.toNat)
    (hrest : decodeLoop alphabet text ((acc <<< 6) ||| (UInt8.ofNat x).toUInt32) bits =
      (data, true)) :
    decodeLoop alphabet (alphabet.getD x 0 :: text) acc (bits + 2) = (b :: data, true) := by
  have hbyte := @toNat_emit ((acc <<< 6) ||| (UInt8.ofNat x).toUInt32) bits (by omega)
  rw [toNat_push acc hx, hb, UInt8.toNat_inj] at hbyte
  rw [decodeLoop, decodeChar_getD h hx]
  dsimp only
  rw [if_pos (by omega), show bits + 2 + 6 - 8 = bits by omega, hbyte, hrest]

/-- Decoding the characters of an encoded text, without what pads it. -/
theorem decodeLoop_encodeCore (h : IsAlphabet alphabet) (data : Bytes) (acc : UInt32) :
    decodeLoop alphabet (encodeCore alphabet false data) acc 0 = (data, true) := by
  induction data using encodeCore.induct generalizing acc with
  | case1 a b c data ih =>
    have hv := toNat_group a b c
    have ha := a.toNat_lt
    have hb := b.toNat_lt
    have hc := c.toNat_lt
    rw [encodeCore, sextet_18, sextet_12, sextet_6, sextet_0, hv,
      decodeLoop_keep h (by omega) (by omega)]
    refine @decodeLoop_emit _ _ _ 4 _ h (by omega) (by omega) _ _ ?_ ?_
    · rw [toNat_push _ (by omega)]
      omega
    refine @decodeLoop_emit _ _ _ 2 _ h (by omega) (by omega) _ _ ?_ ?_
    · rw [toNat_push _ (by omega), toNat_push _ (by omega)]
      omega
    refine @decodeLoop_emit _ _ _ 0 _ h (by omega) (by omega) _ _ ?_ (ih _)
    rw [toNat_push _ (by omega), toNat_push _ (by omega), toNat_push _ (by omega)]
    omega
  | case2 a b =>
    have hv := toNat_group a b 0
    have ha := a.toNat_lt
    have hb := b.toNat_lt
    rw [show UInt8.toUInt32 0 = 0 from rfl, UInt32.or_zero] at hv
    rw [encodeCore, sextet_18, sextet_12, sextet_6, hv, UInt8.toNat_zero]
    show decodeLoop alphabet [_, _, _] acc 0 = _
    rw [decodeLoop_keep h (by omega) (by omega)]
    refine @decodeLoop_emit _ _ _ 4 _ h (by omega) (by omega) _ _ ?_ ?_
    · rw [toNat_push _ (by omega)]
      omega
    refine @decodeLoop_emit _ _ _ 2 _ h (by omega) (by omega) _ _ ?_ rfl
    rw [toNat_push _ (by omega), toNat_push _ (by omega)]
    omega
  | case3 a =>
    have hv := toNat_group a 0 0
    have ha := a.toNat_lt
    rw [show UInt8.toUInt32 0 = 0 from rfl, UInt32.zero_shiftLeft, UInt32.or_zero,
      UInt32.or_zero] at hv
    rw [encodeCore, sextet_18, sextet_12, hv, UInt8.toNat_zero]
    show decodeLoop alphabet [_, _] acc 0 = _
    rw [decodeLoop_keep h (by omega) (by omega)]
    refine @decodeLoop_emit _ _ _ 4 _ h (by omega) (by omega) _ _ ?_ rfl
    rw [toNat_push _ (by omega)]
    omega
  | case4 => rfl

end RoundTrip

/-! ## Padding -/

section Padding

variable {alphabet : Bytes}

def padding (pad : Bool) (n : Nat) : Bytes :=
  if pad then List.replicate ((3 - n % 3) % 3) 61 else []

theorem encodeCore_eq (pad : Bool) (data : Bytes) :
    encodeCore alphabet pad data = encodeCore alphabet false data ++ padding pad data.length := by
  induction data using encodeCore.induct with
  | case1 a b c data ih =>
    have hlen : (a :: b :: c :: data).length % 3 = data.length % 3 := by
      show (data.length + 3) % 3 = _
      omega
    rw [encodeCore, encodeCore, ih, padding, padding, hlen]
    rfl
  | case2 a b => cases pad <;> rfl
  | case3 a => cases pad <;> rfl
  | case4 => cases pad <;> rfl

theorem mem_encodeCore (h : IsAlphabet alphabet) {data : Bytes} {c : UInt8}
    (hc : c ∈ encodeCore alphabet false data) : c ∈ alphabet := by
  have hsextet (v shift : UInt32) : sextet alphabet v shift ∈ alphabet := by
    refine getD_mem h ?_
    rw [UInt32.toNat_and]
    exact Nat.and_lt_two_pow _ (by decide : (0x3f : UInt32).toNat < 2 ^ 6)
  induction data using encodeCore.induct with
  | case1 a b d data ih =>
    rw [encodeCore] at hc
    simp only [List.mem_cons] at hc
    rcases hc with rfl | rfl | rfl | rfl | hc
    · exact hsextet ..
    · exact hsextet ..
    · exact hsextet ..
    · exact hsextet ..
    · exact ih hc
  | case2 a b =>
    rw [encodeCore] at hc
    simp only [Bool.false_eq_true, if_false, List.append_nil, List.mem_cons, List.not_mem_nil,
      or_false] at hc
    rcases hc with rfl | rfl | rfl <;> exact hsextet ..
  | case3 a =>
    rw [encodeCore] at hc
    simp only [Bool.false_eq_true, if_false, List.append_nil, List.mem_cons, List.not_mem_nil,
      or_false] at hc
    rcases hc with rfl | rfl <;> exact hsextet ..
  | case4 => cases hc

/-- Only what pads a text is taken off. -/
theorem rdropWhile_encodeCore (h : IsAlphabet alphabet) (pad : Bool) (data : Bytes) :
    (encodeCore alphabet pad data).rdropWhile (· == 61) = encodeCore alphabet false data := by
  have hpad : ∀ c ∈ padding pad data.length, (c == 61) = true := by
    intro c hc
    unfold padding at hc
    split at hc
    · rw [List.eq_of_mem_replicate hc]
      rfl
    · cases hc
  rw [encodeCore_eq, List.rdropWhile, List.reverse_append,
    List.dropWhile_append_of_pos fun c hc => hpad c (List.mem_reverse.mp hc)]
  rw [← List.rdropWhile, List.rdropWhile_eq_self_iff]
  intro hne hlast
  have hmem := mem_encodeCore h (List.getLast_mem hne)
  rw [beq_iff_eq.mp hlast] at hmem
  exact h.pad hmem

theorem decodeCore_encodeCore (h : IsAlphabet alphabet) (pad : Bool) (data : Bytes) :
    decodeCore (encodeCore alphabet pad data) alphabet = (data, true) := by
  rw [decodeCore, rdropWhile_encodeCore h]
  exact decodeLoop_encodeCore h data 0

theorem length_encodeCore (pad : Bool) (data : Bytes) :
    (encodeCore alphabet pad data).length =
      if pad then base64EncodedLen data.length else base64urlEncodedLen data.length := by
  have hurl : (encodeCore alphabet false data).length = base64urlEncodedLen data.length := by
    induction data using encodeCore.induct with
    | case1 a b c data ih =>
      rw [encodeCore]
      simp only [List.length_cons, ih, base64urlEncodedLen]
      split_ifs <;> omega
    | case2 a b => simp [encodeCore, base64urlEncodedLen]
    | case3 a => simp [encodeCore, base64urlEncodedLen]
    | case4 => rfl
  rw [encodeCore_eq, List.length_append, hurl]
  unfold padding base64EncodedLen base64urlEncodedLen
  cases pad with
  | false => rfl
  | true =>
    simp only [if_true, List.length_replicate]
    split_ifs <;> omega

end Padding

/-! ## What the decoder writes -/

/-- Six bits for every character up to the first that is not in the alphabet; a rest of less than
eight bits is not written. -/
theorem length_decodeLoop {alphabet : Bytes} (h : IsAlphabet alphabet) (text : Bytes) (acc : UInt32)
    {bits : Nat} (hbits : bits < 8) :
    (decodeLoop alphabet text acc bits).1.length =
      (bits + 6 * (text.takeWhile (· ∈ alphabet)).length) / 8 := by
  induction text generalizing acc bits with
  | nil =>
    show 0 = bits / 8
    omega
  | cons c text ih =>
    have hsome := decodeChar_isSome h c
    rw [decodeLoop]
    cases hv : decodeChar c alphabet with
    | none =>
      rw [hv, Option.isSome_none, eq_comm, decide_eq_false_iff_not] at hsome
      rw [List.takeWhile_cons_of_neg (by simpa using hsome)]
      show 0 = bits / 8
      omega
    | some v =>
      rw [hv, Option.isSome_some, eq_comm, decide_eq_true_eq] at hsome
      rw [List.takeWhile_cons_of_pos (by simpa using hsome), List.length_cons]
      dsimp only
      split
      · rw [List.length_cons, ih _ (by omega)]
        omega
      · rw [ih _ (by omega)]
        omega

theorem length_decodeCore {alphabet : Bytes} (h : IsAlphabet alphabet) (text : Bytes) :
    (decodeCore text alphabet).1.length =
      6 * ((text.rdropWhile (· == 61)).takeWhile (· ∈ alphabet)).length / 8 := by
  rw [decodeCore, length_decodeLoop h _ _ (by decide), Nat.zero_add]

theorem length_decodeCore_le {alphabet : Bytes} (h : IsAlphabet alphabet) (text : Bytes) :
    (decodeCore text alphabet).1.length ≤ 6 * text.length / 8 := by
  have htake := (List.takeWhile_sublist (p := fun c => decide (c ∈ alphabet))
    (l := text.rdropWhile (· == 61))).length_le
  have hdrop := (List.rdropWhile_prefix (· == 61) text).length_le
  rw [length_decodeCore h]
  omega

end MagiTrickle.Crypto
