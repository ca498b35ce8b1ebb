import MagiTrickle.Core.AddressText
import MagiTrickle.Frontend.Validators
import MagiTrickle.Netfilter.Ruleset
import MagiTrickle.Subscriptions.Detect
import Mathlib.Algebra.Order.Field.Basic
import Mathlib.Tactic.Positivity

/-!
# Accepted subnets and installed subnets

Two validators accept a subnet before `ruleset_sync` reads it: the detector of the
subscriptions and the one of the web UI. Both accept more than `inet_pton` and
`strtol` read. For every accepted text this module says when it is installed
(`subnet_installed_iff`).
-/

namespace MagiTrickle.Subscriptions

open Libc Netfilter

/-- The byte `'/'`. -/
abbrev slash : UInt8 := 47

def host (b : Bytes) : Bytes := b.takeWhile (· ≠ slash)

def bits (b : Bytes) : Option Bytes := (b.dropWhile (· ≠ slash)).tail?

/-- No octet starts with a zero, unless it is zero. -/
def NoLeadingZero (b : Bytes) : Prop :=
  ∀ o ∈ (host b).splitOn dot, o.head? = some 48 → o.length = 1

/-! ## Dotted quads -/

/-- One to `max` digits with a value of at most `bound`. -/
structure IsRun (max bound : Nat) (o : Bytes) : Prop where
  pos : 1 ≤ o.length
  short : o.length ≤ max
  digit : ∀ c ∈ o, isDigit c
  small : decimal o ≤ bound

/-- What both validators accept as a subnet: four octets, and a prefix length behind a slash. -/
structure IsQuad (b : Bytes) (os : List Bytes) (tail : Bytes) : Prop where
  text : b = [dot].intercalate os ++ tail
  four : os.length = 4
  octet : ∀ o ∈ os, IsRun 3 255 o
  bits : tail = [] ∨ ∃ ds, tail = slash :: ds ∧ IsRun 2 32 ds

theorem not_mem_of_isDigit {o : Bytes} (h : ∀ c ∈ o, isDigit c) : dot ∉ o ∧ slash ∉ o :=
  ⟨fun hin => absurd (h dot hin) (by decide), fun hin => absurd (h slash hin) (by decide)⟩

theorem IsQuad.slash_not_mem {b : Bytes} {os : List Bytes} {tail : Bytes} (h : IsQuad b os tail) :
    slash ∉ [dot].intercalate os := by
  intro hin
  rcases mem_of_mem_intercalate hin with heq | ⟨o, ho, hc⟩
  · exact absurd heq (by decide)
  · exact (not_mem_of_isDigit (h.octet o ho).digit).2 hc

theorem IsQuad.host_eq {b : Bytes} {os : List Bytes} {tail : Bytes} (h : IsQuad b os tail) :
    host b = [dot].intercalate os ∧ b.dropWhile (· ≠ slash) = tail := by
  have hfree : ∀ c ∈ [dot].intercalate os, (c ≠ slash : Bool) := by
    intro c hc
    exact decide_eq_true fun heq => h.slash_not_mem (heq ▸ hc)
  rw [host, h.text, List.takeWhile_append_of_pos hfree, List.dropWhile_append_of_pos hfree]
  rcases h.bits with rfl | ⟨ds, rfl, -⟩
  · exact ⟨List.append_nil _, rfl⟩
  · exact ⟨List.append_nil _, rfl⟩

theorem IsQuad.splitOn_host {b : Bytes} {os : List Bytes} {tail : Bytes} (h : IsQuad b os tail) :
    (host b).splitOn dot = os := by
  have hne : os ≠ [] := by
    rintro rfl
    exact absurd h.four (by decide)
  rw [h.host_eq.1]
  exact List.splitOn_intercalate dot (fun o ho => (not_mem_of_isDigit (h.octet o ho).digit).1) hne

theorem length_intercalate_le {k : Nat} {ps : List Bytes} (h : ∀ p ∈ ps, p.length ≤ k) :
    ([dot].intercalate ps).length ≤ (k + 1) * ps.length := by
  induction ps with
  | nil => exact Nat.le_refl 0
  | cons p ps ih =>
    obtain ⟨hp, hps⟩ := List.forall_mem_cons.mp h
    have ih := ih hps
    cases ps with
    | nil =>
      rw [List.intercalate_singleton, List.length_singleton]
      omega
    | cons q ps =>
      rw [List.intercalate_cons_cons, List.length_append, List.length_append, List.length_singleton,
        List.length_cons, Nat.mul_succ]
      omega

theorem IsQuad.length_lt {b : Bytes} {os : List Bytes} {tail : Bytes} (h : IsQuad b os tail) :
    b.length < 256 := by
  have hos := length_intercalate_le fun o ho => (h.octet o ho).short
  rw [h.four] at hos
  rw [h.text, List.length_append]
  rcases h.bits with rfl | ⟨ds, rfl, hds⟩
  · rw [List.length_nil]
    omega
  · have hshort := hds.short
    rw [List.length_cons]
    omega

theorem IsRun.octet_isSome_iff {o : Bytes} (h : IsRun 3 255 o) :
    (octet o).isSome ↔ (o.head? = some 48 → o.length = 1) := by
  have hne : o ≠ [] := List.length_pos_iff.mp h.pos
  unfold octet
  split
  · next hall => exact iff_of_true rfl hall.2.2.2.1
  · next hnot =>
    refine iff_of_false nofun fun hzero => hnot ?_
    exact ⟨hne, h.short, List.all_eq_true.mpr h.digit, hzero, h.small⟩

/-- A quad is installed when no octet has a leading zero. -/
theorem IsQuad.parseIpv4Rule_isSome_iff {b : Bytes} {os : List Bytes} {tail : Bytes}
    (h : IsQuad b os tail) : (parseIpv4Rule b).isSome ↔ NoLeadingZero b := by
  obtain ⟨ones, hbits⟩ : ∃ ones, parsePrefix 32 b = some (host b, ones) := by
    unfold parsePrefix
    rw [if_neg (Nat.not_le.mpr h.length_lt)]
    dsimp only
    rw [h.host_eq.2]
    rcases h.bits with rfl | ⟨ds, rfl, hds⟩
    · exact ⟨32, rfl⟩
    · have hsmall := hds.small
      dsimp only
      rw [strtol_of_digits (List.length_pos_iff.mp hds.pos) hds.digit]
      dsimp only
      rw [if_pos (by omega)]
      exact ⟨_, rfl⟩
  have hpton : (inetPton4 (host b)).isSome ↔ NoLeadingZero b := by
    unfold inetPton4 NoLeadingZero
    rw [h.splitOn_host, if_pos h.four, mapM_isSome_iff]
    exact forall₂_congr fun o ho => (h.octet o ho).octet_isSome_iff
  rw [parseIpv4Rule, hbits, Option.bind_eq_bind, Option.bind_some, ← hpton]
  dsimp only
  cases inetPton4 (host b) <;> rfl

/-! ## Addresses in groups -/

theorem parsePrefix_isSome {max : Nat} {b : Bytes} :
    (∃ ones, parsePrefix max b = some (host b, ones)) ↔ b.length < 256 ∧
      ∀ t ∈ bits b, ∃ v, strtol t = some (v, []) ∧ 0 ≤ v ∧ v ≤ max := by
  unfold parsePrefix bits
  split
  · next hlong => exact iff_of_false (fun ⟨_, h⟩ => nomatch h) fun h => by omega
  · next hshort =>
    dsimp only
    refine Iff.trans ?_ (and_iff_right (Nat.not_le.mp hshort)).symm
    split
    · next hnil =>
      rw [hnil]
      exact iff_of_true ⟨max, rfl⟩ nofun
    · next c t hcons =>
      simp only [hcons, List.tail?_cons, Option.mem_def, Option.some.injEq, forall_eq']
      split
      · next ones hread =>
        split
        · next hin => exact iff_of_true ⟨_, rfl⟩ ⟨ones, hread, hin⟩
        · next hout =>
          refine iff_of_false (fun ⟨_, h⟩ => nomatch h) ?_
          rintro ⟨v, hv, hin⟩
          cases hread.symm.trans hv
          exact hout hin
      · next hread =>
        refine iff_of_false (fun ⟨_, h⟩ => nomatch h) ?_
        rintro ⟨v, hv, -⟩
        exact hread v hv

theorem parsePrefix_host {max : Nat} {b h : Bytes} {ones : Nat}
    (hsome : parsePrefix max b = some (h, ones)) : h = host b := by
  unfold parsePrefix at hsome
  split at hsome
  · cases hsome
  · dsimp only at hsome
    split at hsome
    · cases hsome
      rfl
    · split at hsome
      · split at hsome
        · cases hsome
          rfl
        · cases hsome
      · cases hsome

theorem parseIpv6Rule_isSome_iff (b : Bytes) : (parseIpv6Rule b).isSome ↔
    (∃ ones, parsePrefix 128 b = some (host b, ones)) ∧ (inetPton6 (host b)).isSome := by
  unfold parseIpv6Rule
  rw [Option.bind_eq_bind]
  cases hbits : parsePrefix 128 b with
  | none => exact iff_of_false nofun fun ⟨⟨_, h⟩, _⟩ => nomatch h
  | some p =>
    obtain ⟨h, ones⟩ := p
    cases parsePrefix_host hbits
    rw [Option.bind_some, and_iff_right ⟨ones, rfl⟩]
    dsimp only
    cases inetPton6 (host b) <;> rfl

/-- What both validators accept in front of the slash: hexadecimal digits and colons. -/
def IsHexHost (b : Bytes) : Prop := ∀ c ∈ host b, isIpv6Char c

theorem IsHexHost.dot_not_mem {b : Bytes} (h : IsHexHost b) : dot ∉ host b :=
  fun hin => absurd (h dot hin) (by decide)

/-- Such a text is installed when it is short, an address, and has a prefix length. -/
theorem IsHexHost.parseIpv6Rule_isSome_iff {b : Bytes} (h : IsHexHost b) :
    (parseIpv6Rule b).isSome ↔ b.length < 256 ∧ IsIpv6Text (host b) ∧
      ∀ t ∈ bits b, ∃ v, strtol t = some (v, []) ∧ 0 ≤ v ∧ v ≤ 128 := by
  rw [Subscriptions.parseIpv6Rule_isSome_iff, parsePrefix_isSome,
    inetPton6_isSome_iff h.dot_not_mem, and_assoc, and_comm (b := IsIpv6Text (host b))]
  rfl

theorem ne_slash_of_isIpv6Char {b : Bytes} (h : ∀ x ∈ b, isIpv6Char x) :
    ∀ x ∈ b, (x ≠ slash : Bool) := by
  intro x hx
  refine decide_eq_true ?_
  rintro rfl
  exact absurd (h slash hx) (by decide)

theorem isHexHost_of_chars {b : Bytes} (hb : ∀ x ∈ b, isIpv6Char x) :
    IsHexHost b ∧ bits b = none := by
  have hbits : bits b = none := by
    rw [bits, List.dropWhile_eq_nil_iff.mpr (ne_slash_of_isIpv6Char hb)]
    rfl
  exact ⟨fun x hx => hb x ((List.takeWhile_sublist _).subset hx), hbits⟩

theorem isHexHost_append {b : Bytes} (hb : ∀ x ∈ b, isIpv6Char x) (t : Bytes) :
    IsHexHost (b ++ slash :: t) ∧ bits (b ++ slash :: t) = some t := by
  have hfree := ne_slash_of_isIpv6Char hb
  have hhost : host (b ++ slash :: t) = b := by
    rw [host, List.takeWhile_append_of_pos hfree]
    exact List.append_nil b
  have hbits : bits (b ++ slash :: t) = some t := by
    rw [bits, List.dropWhile_append_of_pos hfree]
    rfl
  unfold IsHexHost
  rw [hhost]
  exact ⟨hb, hbits⟩

/-! ## The detector -/

theorem isDigit_of_parseDecLoop {s : Bytes} {n : Int} (h : 0 ≤ parseDecLoop s n) :
    ∀ c ∈ s, isDigit c := by
  induction s generalizing n with
  | nil => exact fun c hc => absurd hc List.not_mem_nil
  | cons c s ih =>
    unfold parseDecLoop at h
    split at h
    · exact absurd h (by decide)
    · next hdigit =>
      dsimp only at h
      split at h
      · exact absurd h (by decide)
      · exact List.forall_mem_cons.mpr ⟨Decidable.not_not.mp hdigit, ih h⟩

theorem isDigit_of_parseDec {s : Bytes} (h : 0 ≤ parseDec s) : s ≠ [] ∧ ∀ c ∈ s, isDigit c := by
  unfold parseDec at h
  split at h
  · exact absurd h (by decide)
  · next hne => exact ⟨hne, isDigit_of_parseDecLoop h⟩

/-- Up to nine digits are read as their number. -/
theorem parseDecLoop_short {s : Bytes} (hdigit : ∀ c ∈ s, isDigit c) {n : Nat}
    (hshort : (n + 1) * 10 ^ s.length ≤ 10 ^ 9) :
    parseDecLoop s n = (s.foldl (fun v c => v * 10 + digitVal c) n : Nat) := by
  induction s generalizing n with
  | nil => rfl
  | cons c s ih =>
    obtain ⟨hc, hs⟩ := List.forall_mem_cons.mp hdigit
    have hlt := digitVal_lt hc
    have hnext : (n * 10 + digitVal c + 1) * 10 ^ s.length ≤ 10 ^ 9 := by
      refine Nat.le_trans (Nat.mul_le_mul_right _ (?_ : _ ≤ (n + 1) * 10)) ?_
      · omega
      · rwa [List.length_cons, Nat.pow_succ', ← Nat.mul_assoc] at hshort
    have hsmall : n * 10 + digitVal c + 1 ≤ 10 ^ 9 :=
      Nat.le_trans (Nat.le_mul_of_pos_right _ (Nat.pow_pos (by decide))) hnext
    have hwrap : ((n : Int) * 10 + (digitVal c : Nat)).bmod (2 ^ 32) =
        ((n * 10 + digitVal c : Nat) : Int) := by
      rw [Int.bmod_eq_of_le] <;> omega
    unfold parseDecLoop
    rw [if_neg (not_not_intro hc), hwrap]
    dsimp only
    rw [if_neg (by omega), ih hs hnext]
    rfl

theorem parseDec_short {s : Bytes} (hne : s ≠ []) (hdigit : ∀ c ∈ s, isDigit c)
    (hshort : s.length ≤ 9) : parseDec s = (decimal s : Nat) := by
  have hpow : (0 + 1) * 10 ^ s.length ≤ 10 ^ 9 := by
    rw [Nat.zero_add, Nat.one_mul]
    exact Nat.pow_le_pow_right (by decide) hshort
  rw [parseDec, if_neg hne]
  exact parseDecLoop_short hdigit hpow

theorem digitRun_spec {max bound : Nat} (hmax : max ≤ 9) {s r : Bytes}
    (h : digitRun max bound s = some r) : ∃ o, IsRun max bound o ∧ s = o ++ r := by
  unfold digitRun at h
  dsimp only at h
  split at h
  · cases h
  · next hlen =>
    split at h
    · cases h
    · next hin =>
      cases h
      obtain ⟨hne, hdigit⟩ := isDigit_of_parseDec (Int.not_lt.mp (not_or.mp hin).1)
      rw [parseDec_short hne hdigit (by omega)] at hin
      refine ⟨_, ⟨?_, ?_, hdigit, ?_⟩, List.takeWhile_append_dropWhile.symm⟩ <;> omega

/-- So many octets more are read, with dots between them. -/
theorem octetRuns_spec {n : Nat} {s r : Bytes} (h : octetRuns n s = some r) :
    ∃ os, os.length = n + 1 ∧ (∀ o ∈ os, IsRun 3 255 o) ∧ s = [dot].intercalate os ++ r := by
  induction n generalizing s with
  | zero =>
    obtain ⟨o, ho, rfl⟩ := digitRun_spec (by decide) h
    exact ⟨[o], rfl, List.forall_mem_singleton.mpr ho, by rw [List.intercalate_singleton]⟩
  | succ n ih =>
    unfold octetRuns at h
    split at h
    · next c u hrun =>
      split at h
      · next hdot =>
        subst hdot
        obtain ⟨o, ho, rfl⟩ := digitRun_spec (by decide) hrun
        obtain ⟨os, hlen, hos, rfl⟩ := ih h
        refine ⟨o :: os, by rw [List.length_cons, hlen], List.forall_mem_cons.mpr ⟨ho, hos⟩, ?_⟩
        obtain ⟨o', os, rfl⟩ := List.exists_cons_of_length_eq_add_one hlen
        rw [List.intercalate_cons_cons, List.append_assoc, List.append_assoc]
        rfl
      · cases h
    · cases h

theorem isQuad_of_isValidSubnet {b : Bytes} (h : isValidSubnet b) :
    ∃ os tail, IsQuad b os tail := by
  unfold isValidSubnet at h
  split at h
  · cases h
  · next r hrun =>
    obtain ⟨os, hlen, hos, htext⟩ := octetRuns_spec hrun
    split at h
    · next hhead =>
      obtain ⟨t, rfl⟩ := List.head?_eq_some_iff.mp hhead
      obtain ⟨ds, hds, hbits⟩ := digitRun_spec (by decide) (of_decide_eq_true h)
      refine ⟨os, slash :: t, htext, hlen, hos, .inr ⟨t, rfl, ?_⟩⟩
      rw [List.tail_cons, List.append_nil] at hbits
      exact hbits ▸ hds
    · exact ⟨os, r, htext, hlen, hos, .inl (of_decide_eq_true h)⟩

theorem eq_takeWhile_append {α : Type} [DecidableEq α] {x c : α} {s t : List α}
    (h : s.dropWhile (· ≠ x) = c :: t) : s = s.takeWhile (· ≠ x) ++ x :: t := by
  have hhead := List.head?_dropWhile_not (· ≠ x) s
  rw [h] at hhead
  have hc : c = x := by simpa using hhead
  calc s = s.takeWhile (· ≠ x) ++ s.dropWhile (· ≠ x) := List.takeWhile_append_dropWhile.symm
    _ = s.takeWhile (· ≠ x) ++ x :: t := by rw [h, hc]

theorem isHexHost_of_isValidSubnet6 {b : Bytes} (h : isValidSubnet6 b) :
    IsHexHost b ∧ ∀ t ∈ bits b, t ≠ [] ∧ ∀ c ∈ t, isDigit c := by
  have hchars : ∀ {s : Bytes}, isValidIpv6Chars s → ∀ c ∈ s, isIpv6Char c := fun h =>
    List.all_eq_true.mp (of_decide_eq_true h).2
  unfold isValidSubnet6 at h
  split at h
  · obtain ⟨hhost, hbits⟩ := isHexHost_of_chars (hchars h)
    rw [hbits]
    exact ⟨hhost, nofun⟩
  · next c t hcons =>
    split at h
    · cases h
    · dsimp only at h
      split at h
      · cases h
      · next hin =>
        split at h
        · cases h
        · obtain ⟨hhost, hbits⟩ := isHexHost_append (hchars h) t
          rw [← eq_takeWhile_append hcons] at hhost hbits
          refine ⟨hhost, ?_⟩
          rw [hbits]
          intro u hu
          cases hu
          exact isDigit_of_parseDec (Int.not_lt.mp (not_or.mp hin).1)

/-! ## Bytes of a string -/

/-- The bytes the web UI sends for a string. -/
def utf8 (s : List Char) : Bytes := s.flatMap String.utf8EncodeChar

def byte (c : Char) : UInt8 := UInt8.ofNat c.toNat

theorem toNat_byte {c : Char} (h : c.toNat < 128) : (byte c).toNat = c.toNat := by
  rw [byte, UInt8.toNat_ofNat']
  exact Nat.mod_eq_of_lt (by omega)

theorem utf8EncodeChar_of_lt {c : Char} (h : c.toNat < 128) :
    String.utf8EncodeChar c = [byte c] := by
  unfold String.utf8EncodeChar
  dsimp only
  have hle : c.val.toNat ≤ 0x7f := Nat.le_of_lt_succ h
  rw [if_pos hle]
  rfl

theorem utf8EncodeChar_of_le {c : Char} (h : 128 ≤ c.toNat) :
    ∀ x ∈ String.utf8EncodeChar c, 128 ≤ x.toNat := by
  have hgt : ¬ c.val.toNat ≤ 0x7f := Nat.not_le.mpr (Nat.lt_of_succ_le h)
  unfold String.utf8EncodeChar
  dsimp only
  rw [if_neg hgt]
  split
  · simp only [List.forall_mem_cons, UInt8.toNat_ofNat']
    refine ⟨by omega, by omega, nofun⟩
  · split
    · simp only [List.forall_mem_cons, UInt8.toNat_ofNat']
      refine ⟨by omega, by omega, by omega, nofun⟩
    · simp only [List.forall_mem_cons, UInt8.toNat_ofNat']
      refine ⟨by omega, by omega, by omega, by omega, nofun⟩

theorem utf8_append (s t : List Char) : utf8 (s ++ t) = utf8 s ++ utf8 t := List.flatMap_append

theorem utf8_cons {c : Char} (h : c.toNat < 128) (s : List Char) :
    utf8 (c :: s) = byte c :: utf8 s := by
  rw [utf8, List.flatMap_cons, utf8EncodeChar_of_lt h]
  rfl

theorem utf8_of_ascii {s : List Char} (h : ∀ c ∈ s, c.toNat < 128) : utf8 s = s.map byte := by
  induction s with
  | nil => rfl
  | cons c s ih =>
    obtain ⟨hc, hs⟩ := List.forall_mem_cons.mp h
    rw [utf8_cons hc, ih hs, List.map_cons]

theorem ascii_of_utf8 {s : List Char} (h : ∀ x ∈ utf8 s, x.toNat < 128) :
    ∀ c ∈ s, c.toNat < 128 := by
  intro c hc
  by_contra hge
  obtain ⟨x, hx⟩ := List.exists_mem_of_ne_nil _ (@String.utf8EncodeChar_ne_nil c)
  have hlow := h x (List.mem_flatMap.mpr ⟨c, hc, hx⟩)
  have hhigh := utf8EncodeChar_of_le (Nat.not_lt.mp hge) x hx
  omega

theorem utf8_intercalate (os : List (List Char)) :
    utf8 (['.'].intercalate os) = [dot].intercalate (os.map utf8) := by
  induction os with
  | nil => rfl
  | cons o os ih =>
    cases os with
    | nil => rw [List.map_singleton, List.intercalate_singleton, List.intercalate_singleton]
    | cons o' os =>
      rw [List.intercalate_cons_cons, utf8_append, utf8_append, ih]
      exact List.intercalate_cons_cons.symm

/-! ## Dotted quads in the web UI -/

theorem toNat_of_isDigit {c : Char} (h : Frontend.isDigit c) : 48 ≤ c.toNat ∧ c.toNat ≤ 57 :=
  of_decide_eq_true h

theorem isDigit_byte {c : Char} (h : Frontend.isDigit c) : isDigit (byte c) := by
  obtain ⟨hlo, hhi⟩ := toNat_of_isDigit h
  have hbyte := @toNat_byte c (by omega)
  refine decide_eq_true ⟨UInt8.le_iff_toNat_le.mpr ?_, UInt8.le_iff_toNat_le.mpr ?_⟩
  · rw [hbyte]
    exact hlo
  · rw [hbyte]
    exact hhi

theorem digitVal_byte {c : Char} (h : Frontend.isDigit c) :
    digitVal (byte c) = Frontend.digitValue c := by
  obtain ⟨hlo, hhi⟩ := toNat_of_isDigit h
  rw [digitVal, toNat_byte (by omega), Frontend.digitValue, if_pos h]

theorem utf8_digits {s : List Char} (h : ∀ c ∈ s, Frontend.isDigit c) : utf8 s = s.map byte :=
  utf8_of_ascii fun c hc => by
    have := toNat_of_isDigit (h c hc)
    omega

theorem decimal_map_byte {s : List Char} (h : ∀ c ∈ s, Frontend.isDigit c) :
    decimal (s.map byte) = Frontend.runValue 10 s := by
  rw [decimal, Frontend.runValue, List.foldl_map]
  refine List.foldl_ext _ _ _ fun v c hc => ?_
  rw [digitVal_byte (h c hc)]

theorem isRun_utf8 {max bound : Nat} {s : List Char} (h : Frontend.isDigitRun max s)
    (hsmall : Frontend.runValue 10 s ≤ bound) : IsRun max bound (utf8 s) := by
  obtain ⟨hpos, hshort, hall⟩ := of_decide_eq_true h
  have hdigit : ∀ c ∈ s, Frontend.isDigit c := List.all_eq_true.mp hall
  rw [utf8_digits hdigit]
  refine ⟨?_, ?_, ?_, ?_⟩
  · rwa [List.length_map]
  · rwa [List.length_map]
  · intro x hx
    obtain ⟨c, hc, rfl⟩ := List.mem_map.mp hx
    exact isDigit_byte (hdigit c hc)
  · rwa [decimal_map_byte hdigit]

theorem subnetRe_spec {s : List Char} {os : List (List Char)} {bs : Option (List Char)}
    (h : Frontend.subnetRe s = some (os, bs)) :
    os.length = 4 ∧ (∀ o ∈ os, Frontend.isDigitRun 3 o) ∧
      s = ['.'].intercalate os ++ bs.elim [] ('/' :: ·) ∧ ∀ b ∈ bs, Frontend.isDigitRun 2 b := by
  have hsplit : ['.'].intercalate ((s.takeWhile (· ≠ '/')).splitOn '.') =
      s.takeWhile (· ≠ '/') := List.intercalate_splitOn '.'
  have htext : s.takeWhile (· ≠ '/') ++ s.dropWhile (· ≠ '/') = s :=
    List.takeWhile_append_dropWhile
  unfold Frontend.subnetRe at h
  dsimp only at h
  split at h
  · next hshape =>
    obtain ⟨hfour, hall⟩ := hshape
    have hruns := List.all_eq_true.mp hall
    split at h
    · next hnil =>
      cases h
      refine ⟨hfour, hruns, ?_, nofun⟩
      rw [hnil] at htext
      rw [hsplit]
      exact htext.symm
    · next c b hcons =>
      split at h
      · next hrun =>
        cases h
        refine ⟨hfour, hruns, ?_, fun b hb => Option.mem_some_iff.mp hb ▸ hrun⟩
        rw [hsplit]
        exact eq_takeWhile_append hcons
      · cases h
  · cases h

theorem isQuad_of_ui {s : List Char} (h : Frontend.isValidSubnet s) :
    ∃ os tail, IsQuad (utf8 s) os tail := by
  unfold Frontend.isValidSubnet at h
  split at h
  · cases h
  · next os bs hre =>
    obtain ⟨hfour, hruns, rfl, hbits⟩ := subnetRe_spec hre
    obtain ⟨hsmall, hbound⟩ := (Bool.and_eq_true _ _).mp h
    have hsmall := List.all_eq_true.mp hsmall
    refine ⟨os.map utf8, utf8 (bs.elim [] ('/' :: ·)), ?_, ?_, ?_, ?_⟩
    · rw [utf8_append, utf8_intercalate]
    · rwa [List.length_map]
    · intro x hx
      obtain ⟨o, ho, rfl⟩ := List.mem_map.mp hx
      exact isRun_utf8 (hruns o ho) (of_decide_eq_true (hsmall o ho))
    · cases bs with
      | none => exact .inl rfl
      | some b =>
        have hrun := isRun_utf8 (hbits b rfl) (of_decide_eq_true hbound)
        exact .inr ⟨utf8 b, utf8_cons (by decide) b, hrun⟩

/-! ## Numbers in the web UI -/

theorem one_div_two_pow_lt_one {n : Nat} (h : n ≠ 0) : (1 : Rat) / 2 ^ n < 1 := by
  rw [div_lt_one (by positivity)]
  exact one_lt_pow₀ (by norm_num) h

/-- A number that rounds to a small integer is less than one away from it. -/
theorem roundsTo_near {q : Rat} {k : Nat} (hk : k ≤ 128) (h : Frontend.roundsTo q k) :
    k - 1 < q ∧ q < k + 1 := by
  unfold Frontend.roundsTo at h
  split at h
  · next hzero =>
    subst hzero
    obtain ⟨hlo, hhi⟩ := of_decide_eq_true h
    have hunit := @one_div_two_pow_lt_one 1075 (by decide)
    generalize (1 : Rat) / 2 ^ 1075 = unit at hlo hhi hunit
    rw [Nat.cast_zero]
    constructor <;> linarith only [hlo, hhi, hunit]
  · next hpos =>
    have hlog : Nat.log2 k < 8 := (Nat.log2_lt hpos).mpr (by omega)
    obtain ⟨hlo, hhi⟩ := of_decide_eq_true h
    have hunit := @one_div_two_pow_lt_one (53 - Nat.log2 k) (by omega)
    have hhalf := @one_div_two_pow_lt_one (54 - Nat.log2 k) (by omega)
    constructor
    · split at hlo
      · linarith only [hlo, hhalf]
      · linarith only [hlo, hunit]
    · linarith only [hhi, hunit]

/-- An integer that `Number` reads as a prefix length is one. -/
theorem inRange_of_any {v : Int} (h : (List.range 129).any (Frontend.roundsTo v)) :
    0 ≤ v ∧ v ≤ 128 := by
  obtain ⟨k, hk, hround⟩ := List.any_eq_true.mp h
  have hle : k ≤ 128 := Nat.le_of_lt_succ (List.mem_range.mp hk)
  obtain ⟨hlo, hhi⟩ := roundsTo_near hle hround
  have hlo : (k : Int) - 1 < v := by exact_mod_cast hlo
  have hhi : v < (k : Int) + 1 := by exact_mod_cast hhi
  omega

theorem decimalLiteral_digits {s : List Char} (hne : s ≠ []) (h : ∀ c ∈ s, Frontend.isDigit c) :
    Frontend.decimalLiteral s = some (Frontend.runValue 10 s : Rat) := by
  have htake : s.takeWhile Frontend.isDigit = s := List.takeWhile_eq_self_iff.mpr h
  have hdrop : s.dropWhile Frontend.isDigit = [] := List.dropWhile_eq_nil_iff.mpr h
  unfold Frontend.decimalLiteral
  rw [htake, hdrop]
  dsimp only
  have hdot : ([] : List Char).head? ≠ some '.' := nofun
  rw [if_neg hdot, if_neg hdot, if_neg (fun hnil => hne hnil.1), List.append_nil]
  simp only [Frontend.exponent, Option.map_some, List.length_nil, Nat.cast_zero, sub_self,
    zpow_zero, mul_one]

theorem isDigit_of_byte {c : Char} (hc : c.toNat < 128) (h : isDigit (byte c)) :
    Frontend.isDigit c := by
  obtain ⟨hlo, hhi⟩ := of_decide_eq_true h
  rw [UInt8.le_iff_toNat_le, toNat_byte hc] at hlo hhi
  exact decide_eq_true ⟨hlo, hhi⟩

theorem isSpace_of_byte {c : Char} (hc : c.toNat < 128) (h : isSpace (byte c)) :
    Frontend.isSpace c := by
  have hcases := of_decide_eq_true h
  rw [← UInt8.toNat_inj, UInt8.le_iff_toNat_le, UInt8.le_iff_toNat_le, toNat_byte hc] at hcases
  have hnat : c.toNat = 32 ∨ (9 ≤ c.toNat ∧ c.toNat ≤ 13) := hcases
  refine decide_eq_true (.inl ?_)
  simp only [List.mem_cons]
  omega

theorem eq_of_byte {c d : Char} (hc : c.toNat < 128) (hd : d.toNat < 128) (h : byte c = byte d) :
    c = d := by
  have hnat : c.toNat = d.toNat := by rw [← toNat_byte hc, ← toNat_byte hd, h]
  rw [← Char.ofNat_toNat c, ← Char.ofNat_toNat d, hnat]

theorem not_space_of_isDigit {c : Char} (h : Frontend.isDigit c) : ¬ Frontend.isSpace c := by
  obtain ⟨hlo, hhi⟩ := toNat_of_isDigit h
  intro hspace
  have hcases := of_decide_eq_true hspace
  simp only [List.mem_cons, List.not_mem_nil, or_false] at hcases
  omega

theorem IsDecimal.lt_128 {t ws sg ds : Bytes} (h : IsDecimal t ws sg ds) :
    ∀ x ∈ t, x.toNat < 128 := by
  intro x hx
  rw [h.text, List.mem_append, List.mem_append] at hx
  rcases hx with hx | hx | hx
  · have hcases := of_decide_eq_true (h.blank x hx)
    rw [← UInt8.toNat_inj, UInt8.le_iff_toNat_le, UInt8.le_iff_toNat_le] at hcases
    have hnat : x.toNat = 32 ∨ (9 ≤ x.toNat ∧ x.toNat ≤ 13) := hcases
    omega
  · rcases h.sign with rfl | rfl | rfl
    · exact absurd hx List.not_mem_nil
    · rw [List.mem_singleton.mp hx]
      decide
    · rw [List.mem_singleton.mp hx]
      decide
  · obtain ⟨hlo, hhi⟩ := of_decide_eq_true (h.digit x hx)
    rw [UInt8.le_iff_toNat_le] at hhi
    have hnat : x.toNat ≤ 57 := hhi
    omega

structure IsDecimalString (s ws sg ds : List Char) : Prop where
  text : s = ws ++ (sg ++ ds)
  blank : ∀ c ∈ ws, Frontend.isSpace c
  sign : sg = [] ∨ sg = ['-'] ∨ sg = ['+']
  pos : ds ≠ []
  digit : ∀ c ∈ ds, Frontend.isDigit c

theorem IsDecimal.string {s : List Char} {ws sg ds : Bytes} (h : IsDecimal (utf8 s) ws sg ds) :
    ∃ cws csg cds, IsDecimalString s cws csg cds ∧ csg.map byte = sg ∧ cds.map byte = ds := by
  have hascii := ascii_of_utf8 (IsDecimal.lt_128 h)
  have htext := h.text
  rw [utf8_of_ascii hascii] at htext
  obtain ⟨cws, rest, rfl, hws, hrest⟩ := List.map_eq_append_iff.mp htext
  obtain ⟨csg, cds, rfl, hsg, hds⟩ := List.map_eq_append_iff.mp hrest
  obtain ⟨hwsAscii, hrestAscii⟩ := List.forall_mem_append.mp hascii
  obtain ⟨hsgAscii, hdsAscii⟩ := List.forall_mem_append.mp hrestAscii
  have hone : ∀ d : Char, d.toNat < 128 → csg.map byte = [byte d] → csg = [d] := by
    intro d hd hmap
    obtain ⟨c, rfl, hc⟩ := List.map_eq_singleton_iff.mp hmap
    rw [eq_of_byte (hsgAscii c List.mem_cons_self) hd hc]
  refine ⟨cws, csg, cds, ⟨rfl, ?_, ?_, ?_, ?_⟩, hsg, hds⟩
  · intro c hc
    exact isSpace_of_byte (hwsAscii c hc) (h.blank _ (hws ▸ List.mem_map_of_mem hc))
  · rcases h.sign with hnil | hminus | hplus
    · exact .inl (List.map_eq_nil_iff.mp (hsg.trans hnil))
    · exact .inr (.inl (hone '-' (by decide) (hsg.trans hminus)))
    · exact .inr (.inr (hone '+' (by decide) (hsg.trans hplus)))
  · rintro rfl
    exact h.pos hds.symm
  · intro c hc
    exact isDigit_of_byte (hdsAscii c hc) (h.digit _ (hds ▸ List.mem_map_of_mem hc))

theorem trim_digits {s : List Char} (hne : s ≠ []) (h : ∀ c ∈ s, Frontend.isDigit c)
    (t : List Char) : (t ++ s).rdropWhile Frontend.isSpace = t ++ s := by
  refine List.rdropWhile_eq_self_iff.mpr fun hpos => ?_
  rw [List.getLast_append_of_ne_nil _ hne]
  exact not_space_of_isDigit (h _ (List.getLast_mem hne))

theorem IsDecimalString.trim {s ws sg ds : List Char} (h : IsDecimalString s ws sg ds) :
    (s.dropWhile Frontend.isSpace).rdropWhile Frontend.isSpace = sg ++ ds := by
  have hkeep : (sg ++ ds).dropWhile Frontend.isSpace = sg ++ ds := by
    obtain ⟨c, cs, rfl⟩ := List.exists_cons_of_ne_nil h.pos
    rcases h.sign with rfl | rfl | rfl
    · exact List.dropWhile_cons_of_neg (not_space_of_isDigit (h.digit c List.mem_cons_self))
    · rfl
    · rfl
  rw [h.text, List.dropWhile_append_of_pos h.blank, hkeep, trim_digits h.pos h.digit]

theorem numericValue_digits {s ds : List Char} (hne : ds ≠ []) (h : ∀ c ∈ ds, Frontend.isDigit c)
    (htrim : (s.dropWhile Frontend.isSpace).rdropWhile Frontend.isSpace = ds) :
    Frontend.numericValue s = Frontend.decimalLiteral ds := by
  have hmem : ∀ {a b : Char} {u : List Char}, ds = a :: b :: u → Frontend.isDigit b := by
    rintro a b u rfl
    exact h b (List.mem_cons_of_mem _ List.mem_cons_self)
  have hfirst : ∀ {a : Char} {u : List Char}, ds = a :: u → Frontend.isDigit a := by
    rintro a u rfl
    exact h a List.mem_cons_self
  unfold Frontend.numericValue
  rw [htrim]
  split
  · next hnil => exact absurd rfl hne
  all_goals first
    | exact absurd (hmem rfl) (by decide)
    | exact absurd (hfirst rfl) (by decide)
    | rfl

theorem IsDecimalString.numericValue_eq {s ws sg ds : List Char} (h : IsDecimalString s ws sg ds) :
    Frontend.numericValue s = some (signedDecimal (sg.map byte) (ds.map byte) : Rat) := by
  have hvalue := decimalLiteral_digits h.pos h.digit
  have htrim := h.trim
  rw [signedDecimal, decimal_map_byte h.digit]
  rcases h.sign with rfl | rfl | rfl
  · rw [numericValue_digits h.pos h.digit htrim, hvalue]
    rfl
  · unfold Frontend.numericValue
    rw [htrim]
    change (Frontend.decimalLiteral ds).map (- ·) = _
    have hminus : List.map byte ['-'] = [45] := by decide
    rw [hvalue, if_pos hminus, Option.map_some, Int.cast_neg, Int.cast_natCast]
  · unfold Frontend.numericValue
    rw [htrim]
    change Frontend.decimalLiteral ds = _
    rw [hvalue]
    rfl

/-- What `Number` reads as a prefix length and `strtol` reads to the end is in range. -/
theorem strtol_inRange {s : List Char} {v : Int} (h : Frontend.isPrefixNumber s)
    (hread : strtol (utf8 s) = some (v, [])) : 0 ≤ v ∧ v ≤ 128 := by
  obtain ⟨ws, sg, ds, hdec⟩ := isDecimal_of_strtol hread
  obtain ⟨cws, csg, cds, hstring, rfl, rfl⟩ := IsDecimal.string hdec
  rw [hdec.strtol_eq] at hread
  cases hread
  unfold Frontend.isPrefixNumber at h
  rw [hstring.numericValue_eq] at h
  exact inRange_of_any h

/-! ## Addresses in the web UI -/

theorem toNat_of_digitValue {c : Char} (h : Frontend.digitValue c < 16) :
    (48 ≤ c.toNat ∧ c.toNat ≤ 57) ∨ (97 ≤ c.toNat ∧ c.toNat ≤ 102) ∨
      (65 ≤ c.toNat ∧ c.toNat ≤ 70) := by
  unfold Frontend.digitValue at h
  split at h
  · next hdigit => exact .inl (toNat_of_isDigit hdigit)
  · split at h
    · next hlower => exact .inr (.inl hlower)
    · split at h
      · next hupper => exact .inr (.inr hupper)
      · exact absurd h (by decide)

theorem isIpv6Char_byte {c : Char} (h : Frontend.digitValue c < 16 ∨ c = ':') :
    c.toNat < 128 ∧ isIpv6Char (byte c) := by
  have hnat : (48 ≤ c.toNat ∧ c.toNat ≤ 57) ∨ (97 ≤ c.toNat ∧ c.toNat ≤ 102) ∨
      (65 ≤ c.toNat ∧ c.toNat ≤ 70) ∨ c.toNat = 58 := by
    rcases h with h | rfl
    · have := toNat_of_digitValue h
      omega
    · exact .inr (.inr (.inr rfl))
  have hascii : c.toNat < 128 := by omega
  refine ⟨hascii, decide_eq_true ?_⟩
  simp only [UInt8.le_iff_toNat_le, ← UInt8.toNat_inj, toNat_byte hascii]
  exact hnat

theorem utf8_ipv6 {ip : List Char} (h : Frontend.isValidIPv6 ip) :
    ∀ x ∈ utf8 ip, isIpv6Char x := by
  obtain ⟨-, hall, -⟩ := of_decide_eq_true h
  have hchars : ∀ c ∈ ip, c.toNat < 128 ∧ isIpv6Char (byte c) := fun c hc =>
    isIpv6Char_byte (of_decide_eq_true (List.all_eq_true.mp hall c hc))
  rw [utf8_of_ascii fun c hc => (hchars c hc).1]
  intro x hx
  obtain ⟨c, hc, rfl⟩ := List.mem_map.mp hx
  exact (hchars c hc).2

theorem isHexHost_of_ui {s : List Char} (h : Frontend.isValidSubnet6 s) : IsHexHost (utf8 s) ∧
    ∀ t ∈ bits (utf8 s), ∀ v, strtol t = some (v, []) → 0 ≤ v ∧ v ≤ 128 := by
  have htext : ['/'].intercalate (s.splitOn '/') = s := List.intercalate_splitOn '/'
  unfold Frontend.isValidSubnet6 at h
  split at h
  · next ip hsplit =>
    rw [hsplit, List.intercalate_singleton] at htext
    obtain ⟨hhost, hbits⟩ := isHexHost_of_chars (htext ▸ utf8_ipv6 h)
    rw [hbits]
    exact ⟨hhost, nofun⟩
  · next ip bs hsplit =>
    obtain ⟨hnumber, hip⟩ := (Bool.and_eq_true _ _).mp h
    rw [hsplit, List.intercalate_cons_cons, List.intercalate_singleton, List.append_assoc] at htext
    have hbytes : utf8 s = utf8 ip ++ slash :: utf8 bs := by
      rw [← htext, utf8_append]
      exact congrArg _ (utf8_cons (by decide) bs)
    obtain ⟨hhost, hbits⟩ := isHexHost_append (utf8_ipv6 hip) (utf8 bs)
    rw [hbytes, hbits]
    refine ⟨hhost, fun t ht v hread => ?_⟩
    cases ht
    exact strtol_inRange hnumber hread
  · cases h

/-! ## Installed subnets -/

theorem isValidSubnet_of_detectType {rx : Bytes → Bool} {b : Bytes}
    (h : detectType rx b = str "subnet") : isValidSubnet b := by
  unfold detectType at h
  split at h
  · exact absurd h (by decide)
  · split at h
    · next hvalid => exact hvalid
    · split at h
      · exact absurd h (by decide)
      · split at h
        · exact absurd h (by decide)
        · split at h
          · exact absurd h (by decide)
          · exact absurd h (by decide)

theorem isValidSubnet6_of_detectType {rx : Bytes → Bool} {b : Bytes}
    (h : detectType rx b = str "subnet6") : isValidSubnet6 b := by
  unfold detectType at h
  split at h
  · next hvalid => exact hvalid
  · split at h
    · exact absurd h (by decide)
    · split at h
      · exact absurd h (by decide)
      · split at h
        · exact absurd h (by decide)
        · split at h
          · exact absurd h (by decide)
          · exact absurd h (by decide)

/-- A subnet that one of the validators accepts is installed exactly when no octet has a leading
zero; an IPv6 subnet exactly when it is shorter than the buffer, its address has the right groups
and its prefix length, which the detector may have read from a number that wraps around, is at
most 128; the web UI sees to that, but its prefix length has to be written in decimal. -/
theorem subnet_installed_iff (rx : Bytes → Bool) (b : Bytes) (s : List Char) :
    (detectType rx b = str "subnet" → ((parseIpv4Rule b).isSome ↔ NoLeadingZero b)) ∧
      (Frontend.isValidSubnet s → ((parseIpv4Rule (utf8 s)).isSome ↔ NoLeadingZero (utf8 s))) ∧
      (detectType rx b = str "subnet6" →
        ((parseIpv6Rule b).isSome ↔ b.length < 256 ∧ IsIpv6Text (host b) ∧
          ∀ t ∈ bits b, decimal t ≤ 128)) ∧
      (Frontend.isValidSubnet6 s → ((parseIpv6Rule (utf8 s)).isSome ↔
        (utf8 s).length < 256 ∧ IsIpv6Text (host (utf8 s)) ∧
          ∀ t ∈ bits (utf8 s), IsDecimalText t)) := by
  refine ⟨fun h => ?_, fun h => ?_, fun h => ?_, fun h => ?_⟩
  · obtain ⟨os, tail, hquad⟩ := isQuad_of_isValidSubnet (isValidSubnet_of_detectType h)
    exact hquad.parseIpv4Rule_isSome_iff
  · obtain ⟨os, tail, hquad⟩ := isQuad_of_ui h
    exact hquad.parseIpv4Rule_isSome_iff
  · obtain ⟨hhost, hdigits⟩ := isHexHost_of_isValidSubnet6 (isValidSubnet6_of_detectType h)
    rw [hhost.parseIpv6Rule_isSome_iff]
    refine and_congr_right fun _ => and_congr_right fun _ => forall₂_congr fun t ht => ?_
    obtain ⟨hne, hdigit⟩ := hdigits t ht
    rw [strtol_of_digits hne hdigit]
    constructor
    · rintro ⟨v, hv, -, hle⟩
      cases hv
      exact Int.ofNat_le.mp hle
    · exact fun hle => ⟨decimal t, rfl, Int.natCast_nonneg _, Int.ofNat_le.mpr hle⟩
  · obtain ⟨hhost, hrange⟩ := isHexHost_of_ui h
    rw [hhost.parseIpv6Rule_isSome_iff]
    refine and_congr_right fun _ => and_congr_right fun _ => forall₂_congr fun t ht => ?_
    rw [← strtol_whole_iff]
    exact ⟨fun ⟨v, hv, _⟩ => ⟨v, hv⟩, fun ⟨v, hv⟩ => ⟨v, hv, hrange t ht v hv⟩⟩

theorem subnet_installed_iff_accepted :
    detectType (fun _ => false) (str "10.0.0.0/8") = str "subnet" ∧
      NoLeadingZero (str "10.0.0.0/8") ∧
      detectType (fun _ => false) (str "fe80::/010") = str "subnet6" ∧
      (∀ t ∈ bits (str "fe80::/010"), decimal t ≤ 128) ∧
      Frontend.isValidSubnet6 [':', ':', '1', '/', '6', '4'] ∧
      IsIpv6Text (host (utf8 [':', ':', '1', '/', '6', '4'])) := by
  have hdetect : detectType (fun _ => false) (str "10.0.0.0/8") = str "subnet" := by decide +kernel
  have hdetect6 : detectType (fun _ => false) (str "fe80::/010") = str "subnet6" := by
    decide +kernel
  have hvalid : Frontend.isValidSubnet6 [':', ':', '1', '/', '6', '4'] := by decide +kernel
  obtain ⟨h4, -, -, hui⟩ := subnet_installed_iff (fun _ => false) (str "10.0.0.0/8")
    [':', ':', '1', '/', '6', '4']
  obtain ⟨-, -, h6, -⟩ := subnet_installed_iff (fun _ => false) (str "fe80::/010") []
  exact ⟨hdetect, (h4 hdetect).mp (by decide +kernel), hdetect6,
    ((h6 hdetect6).mp (by decide +kernel)).2.2, hvalid, ((hui hvalid).mp (by decide +kernel)).2.1⟩

/-- The detector and the web UI accept texts that are never installed: an octet with a leading
zero, two gaps in one address, a prefix length that wraps around to 4, and an empty one. -/
theorem accepted_subnet_not_installed :
    (detectType (fun _ => false) (str "01.2.3.4") = str "subnet" ∧
      parseIpv4Rule (str "01.2.3.4") = none) ∧
    (detectType (fun _ => false) (str "1::2::3") = str "subnet6" ∧
      parseIpv6Rule (str "1::2::3") = none) ∧
    (detectType (fun _ => false) (str "::1/4294967300") = str "subnet6" ∧
      parseIpv6Rule (str "::1/4294967300") = none) ∧
    (Frontend.isValidSubnet ['0', '1', '.', '2', '.', '3', '.', '4'] ∧
      parseIpv4Rule (utf8 ['0', '1', '.', '2', '.', '3', '.', '4']) = none) ∧
    Frontend.isValidSubnet6 [':', ':', '1', '/'] ∧
      parseIpv6Rule (utf8 [':', ':', '1', '/']) = none := by
  decide +kernel

end MagiTrickle.Subscriptions
