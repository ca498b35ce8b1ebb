import MagiTrickle.Dns.Wire

/-!
# Parsing and packing agree

What the parser accepts is canonical: names are labels that end with the root
and fit in 255 octets, and the data of a compressible type is its fixed parts
around such names. Canonical messages are read back from their uncompressed
encoding, piece by piece (`Reader.Reads`).
-/

namespace MagiTrickle.Dns.Wire

open Lib Lib.Reader

/-! ## Numbers -/

theorem or_eq_add {a b k : Nat} (h : b < 2 ^ k) : a <<< k ||| b = a * 2 ^ k + b := by
  rw [← Nat.shiftLeft_add_eq_or_of_lt h, Nat.shiftLeft_eq]

theorem u16_of_bytes (v : UInt16) :
    (v >>> 8).toUInt8.toUInt16 <<< 8 ||| v.toUInt8.toUInt16 = v := by
  have hv : v.toNat < 2 ^ 16 := v.toNat_lt
  have hshift : (v.toNat / 2 ^ 8) % 2 ^ 8 < 2 ^ 8 := Nat.mod_lt _ (by decide)
  apply UInt16.toNat_inj.mp
  simp only [UInt16.toNat_or, UInt16.toNat_shiftLeft, UInt8.toNat_toUInt16, UInt16.toNat_toUInt8,
    UInt16.toNat_shiftRight, UInt16.toNat_ofNat, Nat.shiftRight_eq_div_pow,
    show 8 % 2 ^ 16 % 16 = 8 from rfl]
  rw [Nat.mod_eq_of_lt (by rw [Nat.shiftLeft_eq]; omega), or_eq_add (Nat.mod_lt _ (by decide))]
  omega

theorem u32_of_bytes (v : UInt32) :
    (v >>> 24).toUInt8.toUInt32 <<< 24 ||| (v >>> 16).toUInt8.toUInt32 <<< 16 |||
      (v >>> 8).toUInt8.toUInt32 <<< 8 ||| v.toUInt8.toUInt32 = v := by
  have hv : v.toNat < 2 ^ 32 := v.toNat_lt
  have hlt : ∀ n k, k ≤ 24 → (n % 2 ^ 8) <<< k < 2 ^ 32 := by
    intro n k hk
    rw [Nat.shiftLeft_eq]
    calc n % 2 ^ 8 * 2 ^ k < 2 ^ 8 * 2 ^ k :=
          Nat.mul_lt_mul_of_pos_right (Nat.mod_lt _ (by decide)) (Nat.two_pow_pos k)
      _ ≤ 2 ^ 8 * 2 ^ 24 := Nat.mul_le_mul_left _ (Nat.pow_le_pow_right (by decide) hk)
      _ = 2 ^ 32 := rfl
  apply UInt32.toNat_inj.mp
  simp only [UInt32.toNat_or, UInt32.toNat_shiftLeft, UInt8.toNat_toUInt32, UInt32.toNat_toUInt8,
    UInt32.toNat_shiftRight, UInt32.toNat_ofNat, Nat.shiftRight_eq_div_pow,
    show 8 % 2 ^ 32 % 32 = 8 from rfl, show 16 % 2 ^ 32 % 32 = 16 from rfl,
    show 24 % 2 ^ 32 % 32 = 24 from rfl]
  rw [Nat.mod_eq_of_lt (hlt _ 24 (by decide)), Nat.mod_eq_of_lt (hlt _ 16 (by decide)),
    Nat.mod_eq_of_lt (hlt _ 8 (by decide)), Nat.or_assoc, Nat.or_assoc]
  have hd : v.toNat % 2 ^ 8 < 2 ^ 8 := Nat.mod_lt _ (by decide)
  rw [or_eq_add (a := v.toNat / 2 ^ 8 % 2 ^ 8) hd,
    or_eq_add (a := v.toNat / 2 ^ 16 % 2 ^ 8) (by omega),
    or_eq_add (a := v.toNat / 2 ^ 24 % 2 ^ 8) (by omega)]
  omega

theorem reads_rdU16 (v : UInt16) : Reads rdU16 (wrU16 v) v := by
  intro e pre post _
  have hget : ∀ i, (pre ++ (wrU16 v ++ post))[pre.length + i]? = (wrU16 v ++ post)[i]? := fun i => by
    rw [List.getElem?_append_right (Nat.le_add_right ..), Nat.add_sub_cancel_left]
  unfold rdU16
  rw [← Nat.add_zero pre.length, hget 0]
  rw [Nat.add_zero, hget 1]
  show some ((v >>> 8).toUInt8.toUInt16 <<< 8 ||| v.toUInt8.toUInt16, _) = _
  rw [u16_of_bytes]
  rfl

theorem reads_rdU32 (v : UInt32) : Reads rdU32 (wrU32 v) v := by
  intro e pre post _
  have hget : ∀ i, (pre ++ (wrU32 v ++ post))[pre.length + i]? = (wrU32 v ++ post)[i]? := fun i => by
    rw [List.getElem?_append_right (Nat.le_add_right ..), Nat.add_sub_cancel_left]
  unfold rdU32
  rw [← Nat.add_zero pre.length, hget 0, Nat.add_zero, hget 1, hget 2, hget 3]
  show some ((v >>> 24).toUInt8.toUInt32 <<< 24 ||| (v >>> 16).toUInt8.toUInt32 <<< 16 |||
      (v >>> 8).toUInt8.toUInt32 <<< 8 ||| v.toUInt8.toUInt32, _) = _
  rw [u32_of_bytes]
  rfl
/-! ## Names -/

inductive Labels : Bytes → Prop where
  | root : Labels [0]
  | label {len8 : UInt8} {l w : Bytes} : len8 &&& 0xC0 = 0 → len8 ≠ 0 → l.length = len8.toNat →
      Labels w → Labels (len8 :: (l ++ w))

structure IsName (w : Bytes) : Prop where
  labels : Labels w
  short : w.length ≤ maxName

theorem rdNameLoop_fuel (buf : Bytes) (fuel : Nat) (pos : Nat) (out : Bytes) (jumps : Nat)
    (after : Option Nat)
    (h : (maxPointerJumps - jumps) + (maxName - out.length) < fuel) :
    rdNameLoop buf (fuel + 1) pos out jumps after = rdNameLoop buf fuel pos out jumps after := by
  induction fuel generalizing pos out jumps after with
  | zero => omega
  | succ fuel ih =>
    rw [rdNameLoop, rdNameLoop.eq_def buf (fuel + 1)]
    dsimp only
    cases buf[pos]? with
    | none => rfl
    | some len8 =>
      dsimp only
      split
      · cases buf[pos + 1]? with
        | none => rfl
        | some low =>
          dsimp only
          split
          · rfl
          · split
            · rfl
            · exact ih _ _ _ _ (by unfold maxPointerJumps at *; omega)
      · split
        · rfl
        · split
          · rfl
          · next hne =>
            have hpos : len8.toNat ≠ 0 := fun h0 => hne (UInt8.toNat_inj.mp h0)
            split
            · rfl
            · next hlen =>
              split
              · rfl
              · refine ih _ _ _ _ ?_
                rw [List.length_append, List.length_cons, List.length_take, List.length_drop]
                unfold maxName at *
                omega

theorem rdNameLoop_labels {buf : Bytes} {fuel pos : Nat} {out : Bytes} {jumps : Nat}
    {after : Option Nat} {name : Bytes} {q : Nat}
    (h : rdNameLoop buf fuel pos out jumps after = some (name, q)) :
    ∃ w, name = out ++ w ∧ Labels w ∧ name.length ≤ maxName := by
  induction fuel generalizing pos out jumps after with
  | zero => cases h
  | succ fuel ih =>
    rw [rdNameLoop] at h
    cases hb : buf[pos]? with
    | none =>
      rw [hb] at h
      cases h
    | some len8 =>
      rw [hb] at h
      dsimp only at h
      split at h
      · cases hb₁ : buf[pos + 1]? with
        | none =>
          rw [hb₁] at h
          cases h
        | some low =>
          rw [hb₁] at h
          dsimp only at h
          split at h
          · cases h
          · split at h
            · cases h
            · exact ih h
      · split at h
        · cases h
        · next htype =>
          split at h
          · split at h
            · cases h
            · next hroom =>
              cases h
              refine ⟨[0], rfl, .root, ?_⟩
              rw [List.length_append, List.length_singleton]
              omega
          · next hne =>
            split at h
            · cases h
            · next hin =>
              split at h
              · cases h
              · obtain ⟨w, rfl, hw, hlen⟩ := ih h
                refine ⟨len8 :: ((buf.drop (pos + 1)).take len8.toNat ++ w), ?_,
                  .label (not_not.mp htype) hne ?_ hw, hlen⟩
                · rw [List.append_assoc, List.cons_append]
                · rw [List.length_take, List.length_drop]
                  omega

theorem isName_of_rdName {buf : Bytes} {p q : Nat} {name : Bytes}
    (h : rdName buf p = some (name, q)) : IsName name := by
  obtain ⟨w, rfl, hw, hlen⟩ := rdNameLoop_labels h
  exact ⟨hw, hlen⟩

theorem rdNameLoop_of_labels {w : Bytes} (hw : Labels w) (pre post out : Bytes) {fuel : Nat}
    (hroom : out.length + w.length ≤ maxName) (hfuel : w.length ≤ fuel) :
    rdNameLoop (pre ++ (w ++ post)) fuel pre.length out 0 none =
      some (out ++ w, pre.length + w.length) := by
  induction hw generalizing pre out fuel with
  | root =>
    obtain ⟨fuel, rfl⟩ : ∃ k, fuel = k + 1 := Nat.exists_eq_add_one.mpr hfuel
    rw [rdNameLoop, List.getElem?_append_right (Nat.le_refl _), Nat.sub_self]
    have hroom' : ¬ out.length + 1 > maxName := Nat.not_lt.mpr hroom
    dsimp only [List.cons_append, List.getElem?_cons_zero]
    rw [if_neg (by decide), if_neg (by decide), if_pos rfl, if_neg hroom']
    rfl
  | @label len8 l w htype hne hlen hw ih =>
    rw [List.length_cons, List.length_append] at hroom hfuel
    obtain ⟨fuel, rfl⟩ : ∃ k, fuel = k + 1 := Nat.exists_eq_add_one.mpr (by omega)
    rw [rdNameLoop, List.getElem?_append_right (Nat.le_refl _), Nat.sub_self]
    dsimp only [List.cons_append, List.getElem?_cons_zero]
    have hptr : ¬ len8 &&& 0xC0 = 0xC0 := fun h => by
      rw [htype] at h
      cases h
    have hin : ¬ pre.length + 1 + len8.toNat > (pre ++ len8 :: (l ++ w ++ post)).length := by
      simp only [List.length_append, List.length_cons]
      omega
    have hfit : ¬ out.length + 1 + len8.toNat + 1 > maxName + 1 := by omega
    have hbytes : ((pre ++ len8 :: (l ++ w ++ post)).drop (pre.length + 1)).take len8.toNat = l := by
      rw [List.drop_append, List.drop_of_length_le (by omega), List.nil_append,
        Nat.add_sub_cancel_left, List.drop_one, List.tail_cons, List.append_assoc, ← hlen,
        List.take_left]
    rw [if_neg hptr, if_neg (not_not.mpr htype), if_neg hne, if_neg hin, if_neg hfit, hbytes]
    have hlen' : pre.length + 1 + len8.toNat = (pre ++ len8 :: l).length := by
      rw [List.length_append, List.length_cons, hlen]
      omega
    have hrest := @ih (pre ++ len8 :: l) (out ++ len8 :: l) fuel
      (by rw [List.length_append, List.length_cons]; omega) (by omega)
    rw [hlen']
    simp only [List.append_assoc, List.cons_append, List.length_append, List.length_cons] at hrest ⊢
    rw [hrest]
    congr 2
    omega

theorem IsName.reads {w : Bytes} (h : IsName w) : Reads rdName w w := by
  intro e pre post _
  refine rdNameLoop_of_labels h.labels pre post [] (by simpa using h.short) ?_
  have := h.short
  unfold nameFuel
  omega

/-! ## Record data -/

structure IsRdata (rtype : UInt16) (rdata : Bytes) : Prop where
  parts : ∃ fixed trail : Bytes, ∃ names : List Bytes, rdata = fixed ++ (names.flatten ++ trail) ∧
    fixed.length = fixedLen rtype ∧ trail.length = trailLen rtype ∧
    names.length = nameCount rtype ∧ ∀ w ∈ names, IsName w

theorem takeWithin_eq_some {rdEnd n : Nat} {buf bs : Bytes} {p q : Nat}
    (h : takeWithin rdEnd n buf p = some (bs, q)) : bs.length = n ∧ q = p + n ∧ p + n ≤ rdEnd := by
  obtain ⟨p', _, hp, h⟩ := bind_eq_some.mp h
  cases hp
  obtain ⟨_, _, hens, h⟩ := bind_eq_some.mp h
  obtain ⟨hle, rfl⟩ := ensure_eq_some.mp hens
  obtain ⟨hin, rfl, rfl⟩ := take_eq_some.mp h
  refine ⟨?_, rfl, hle⟩
  rw [List.length_take, List.length_drop]
  omega

theorem isName_of_rdNameWithin {rdEnd : Nat} {buf : Bytes} {p q : Nat} {name : Bytes}
    (h : rdNameWithin rdEnd buf p = some (name, q)) : IsName name := by
  obtain ⟨name', _, hname, h⟩ := bind_eq_some.mp h
  obtain ⟨_, _, _, h⟩ := bind_eq_some.mp h
  obtain ⟨_, _, _, h⟩ := bind_eq_some.mp h
  obtain ⟨rfl, -⟩ := pure_eq_some.mp h
  exact isName_of_rdName hname

theorem isRdata_of_canonicalizeRdata {rdEnd : Nat} {rtype : UInt16} {buf : Bytes} {p q : Nat}
    {rdata : Bytes} (h : canonicalizeRdata rdEnd rtype buf p = some (rdata, q)) :
    IsRdata rtype rdata := by
  obtain ⟨fixed, _, hfixed, h⟩ := bind_eq_some.mp h
  obtain ⟨names, _, hnames, h⟩ := bind_eq_some.mp h
  obtain ⟨trail, _, htrail, h⟩ := bind_eq_some.mp h
  obtain ⟨_, _, _, h⟩ := bind_eq_some.mp h
  obtain ⟨_, _, _, h⟩ := bind_eq_some.mp h
  obtain ⟨rfl, -⟩ := pure_eq_some.mp h
  obtain ⟨hlen, hall⟩ := forall_of_times (fun _ _ _ _ => isName_of_rdNameWithin) hnames
  exact ⟨fixed, trail, names, List.append_assoc .., (takeWithin_eq_some hfixed).1,
    (takeWithin_eq_some htrail).1, hlen, hall⟩

theorem readsWithin_takeWithin {e n : Nat} {bs : Bytes} (h : bs.length = n) :
    ReadsWithin e (takeWithin e n) bs bs := by
  intro pre post he
  refine bind_eq_some.mpr ⟨pre.length, _, rfl, bind_eq_some.mpr ⟨(), _,
    ensure_eq_some.mpr ⟨h ▸ he, rfl⟩, Reads.take h e pre post he⟩⟩

theorem IsName.readsWithin {w : Bytes} (h : IsName w) (e : Nat) :
    ReadsWithin e (rdNameWithin e) w w := by
  intro pre post he
  exact bind_eq_some.mpr ⟨w, _, h.reads e pre post he, bind_eq_some.mpr ⟨_, _, rfl,
    bind_eq_some.mpr ⟨(), _, ensure_eq_some.mpr ⟨he, rfl⟩, rfl⟩⟩⟩

theorem IsRdata.canonicalize {rtype : UInt16} {rdata : Bytes} (h : IsRdata rtype rdata)
    (pre post : Bytes) :
    canonicalizeRdata (pre.length + rdata.length) rtype (pre ++ (rdata ++ post)) pre.length =
      some (rdata, pre.length + rdata.length) := by
  obtain ⟨fixed, trail, names, rfl, hfixed, htrail, hcount, hnames⟩ := h.parts
  generalize he : pre.length + (fixed ++ (names.flatten ++ trail)).length = e
  simp only [List.length_append] at he
  have h₁ := readsWithin_takeWithin (e := e) hfixed pre (names.flatten ++ (trail ++ post)) (by omega)
  have h₂ := ReadsWithin.times (w := id) names (fun w hw => (hnames w hw).readsWithin e)
    (pre ++ fixed) (trail ++ post) (by simp only [List.length_append, List.flatMap_id]; omega)
  have h₃ := readsWithin_takeWithin (e := e) htrail (pre ++ fixed ++ names.flatten) post
    (by simp only [List.length_append]; omega)
  simp only [List.append_assoc, List.length_append, List.flatMap_id, hcount] at h₁ h₂ h₃ ⊢
  rw [← Nat.add_assoc pre.length] at h₃
  refine bind_eq_some.mpr ⟨fixed, _, h₁, bind_eq_some.mpr ⟨names, _, h₂, bind_eq_some.mpr
    ⟨trail, _, h₃, bind_eq_some.mpr ⟨_, _, rfl, bind_eq_some.mpr ⟨(), _,
      ensure_eq_some.mpr ⟨?_, rfl⟩, ?_⟩⟩⟩⟩⟩
  · omega
  · rw [pure_eq_some]
    exact ⟨List.append_assoc .., by omega⟩

/-- What is known of a record that was read. -/
structure Rr.Canonical (rr : Rr) : Prop where
  name : IsName rr.name
  fits : rr.rdata.length ≤ 0xFFFF
  rdata : typeHasCompressibleRdata rr.rtype = true → IsRdata rr.rtype rr.rdata

theorem length_flatten_names {names : List Bytes} (h : ∀ w ∈ names, IsName w) :
    names.flatten.length ≤ names.length * maxName := by
  induction names with
  | nil => exact Nat.zero_le _
  | cons w names ih =>
    have hw := (h w (List.mem_cons_self ..)).short
    have hrest := ih fun w' hw' => h w' (List.mem_cons_of_mem _ hw')
    rw [List.flatten_cons, List.length_append, List.length_cons, Nat.succ_mul]
    omega

theorem IsRdata.fits {rtype : UInt16} {rdata : Bytes} (h : IsRdata rtype rdata) :
    rdata.length ≤ 0xFFFF := by
  obtain ⟨fixed, trail, names, rfl, hfixed, htrail, hcount, hnames⟩ := h.parts
  have hlen := length_flatten_names hnames
  have hfixed' : fixedLen rtype ≤ 6 := by
    unfold fixedLen
    split
    · decide
    · split <;> decide
  have htrail' : trailLen rtype ≤ 20 := by
    unfold trailLen
    split <;> decide
  have hcount' : nameCount rtype ≤ 2 := by
    unfold nameCount
    split <;> decide
  have hnames' : names.length * maxName ≤ 2 * 255 := Nat.mul_le_mul (by omega) (Nat.le_refl _)
  simp only [List.length_append]
  omega

theorem parseRdata_spec {rtype rdlength : UInt16} {buf : Bytes} {p q : Nat} {rdata : Bytes}
    (h : parseRdata rtype rdlength.toNat buf p = some (rdata, q)) :
    rdata.length ≤ 0xFFFF ∧ (typeHasCompressibleRdata rtype = true → IsRdata rtype rdata) := by
  obtain ⟨_, _, _, h⟩ := bind_eq_some.mp h
  obtain ⟨_, _, _, h⟩ := bind_eq_some.mp h
  obtain ⟨_, _, _, h⟩ := bind_eq_some.mp h
  split at h
  · have hrd := isRdata_of_canonicalizeRdata h
    exact ⟨hrd.fits, fun _ => hrd⟩
  · next hplain =>
    obtain ⟨-, rfl, -⟩ := take_eq_some.mp h
    have hlt := rdlength.toNat_lt
    refine ⟨?_, fun hc => absurd hc hplain⟩
    rw [List.length_take]
    omega

theorem canonical_of_parseRr {buf : Bytes} {p q : Nat} {rr : Rr}
    (h : parseRr buf p = some (rr, q)) : rr.Canonical := by
  obtain ⟨name, _, hname, h⟩ := bind_eq_some.mp h
  obtain ⟨rtype, _, _, h⟩ := bind_eq_some.mp h
  obtain ⟨rclass, _, _, h⟩ := bind_eq_some.mp h
  obtain ⟨ttl, _, _, h⟩ := bind_eq_some.mp h
  obtain ⟨rdlength, _, _, h⟩ := bind_eq_some.mp h
  obtain ⟨rdata, _, hrdata, h⟩ := bind_eq_some.mp h
  obtain ⟨rfl, -⟩ := pure_eq_some.mp h
  obtain ⟨hfits, hcanon⟩ := parseRdata_spec hrdata
  exact ⟨isName_of_rdName hname, hfits, hcanon⟩

theorem isName_of_parseQuestion {buf : Bytes} {p q : Nat} {qn : Question}
    (h : parseQuestion buf p = some (qn, q)) : IsName qn.name := by
  obtain ⟨name, _, hname, h⟩ := bind_eq_some.mp h
  obtain ⟨_, _, _, h⟩ := bind_eq_some.mp h
  obtain ⟨_, _, _, h⟩ := bind_eq_some.mp h
  obtain ⟨rfl, -⟩ := pure_eq_some.mp h
  exact isName_of_rdName hname

/-! ## Messages -/

/-- What is known of a message that was parsed. -/
structure Msg.Canonical (msg : Msg) : Prop where
  questions : msg.questions.length < 2 ^ 16 ∧ ∀ q ∈ msg.questions, IsName q.name
  answers : msg.answers.length < 2 ^ 16 ∧ ∀ rr ∈ msg.answers, rr.Canonical
  authority : msg.authority.length < 2 ^ 16 ∧ ∀ rr ∈ msg.authority, rr.Canonical
  additional : msg.additional.length < 2 ^ 16 ∧ ∀ rr ∈ msg.additional, rr.Canonical

theorem section_canonical {n : UInt16} {buf : Bytes} {p q : Nat} {rrs : List Rr}
    (h : times parseRr n.toNat buf p = some (rrs, q)) :
    rrs.length < 2 ^ 16 ∧ ∀ rr ∈ rrs, rr.Canonical := by
  obtain ⟨hlen, hall⟩ := forall_of_times (fun _ _ _ _ => canonical_of_parseRr) h
  exact ⟨hlen ▸ n.toNat_lt, hall⟩

theorem canonical_of_msgParse {buf : Bytes} {msg : Msg} (h : msgParse buf = .ok msg) :
    msg.Canonical := by
  unfold msgParse at h
  split at h
  · cases h
  · split at h
    · cases h
    · next q hp =>
      cases h
      obtain ⟨h, _, _, hp⟩ := bind_eq_some.mp hp
      obtain ⟨_, _, _, hp⟩ := bind_eq_some.mp hp
      obtain ⟨_, _, _, hp⟩ := bind_eq_some.mp hp
      split at hp
      · obtain ⟨rfl, -⟩ := pure_eq_some.mp hp
        constructor <;> exact ⟨Nat.two_pow_pos 16, fun _ hx => absurd hx List.not_mem_nil⟩
      · obtain ⟨questions, _, hqd, hp⟩ := bind_eq_some.mp hp
        obtain ⟨answers, _, han, hp⟩ := bind_eq_some.mp hp
        obtain ⟨authority, _, hns, hp⟩ := bind_eq_some.mp hp
        obtain ⟨additional, _, har, hp⟩ := bind_eq_some.mp hp
        obtain ⟨rfl, -⟩ := pure_eq_some.mp hp
        obtain ⟨hlen, hall⟩ := forall_of_times (fun _ _ _ _ => isName_of_parseQuestion) hqd
        exact ⟨⟨hlen ▸ h.qd.toNat_lt, hall⟩, section_canonical han, section_canonical hns,
          section_canonical har⟩

def encodeRr (rr : Rr) : Bytes :=
  rr.name ++ (wrU16 rr.rtype ++ (wrU16 rr.rclass ++ (wrU32 rr.ttl ++
    (wrU16 rr.rdata.length.toUInt16 ++ rr.rdata))))

def encode (msg : Msg) : Bytes :=
  wrHeader msg ++ (msg.questions.flatMap wrQuestion ++ (msg.answers.flatMap encodeRr ++
    (msg.authority.flatMap encodeRr ++ msg.additional.flatMap encodeRr)))

theorem wrSection_canonical {rrs : List Rr} (h : ∀ rr ∈ rrs, rr.Canonical) :
    wrSection rrs = some (rrs.flatMap encodeRr) := by
  have hmap : rrs.mapM wrRr = some (rrs.map encodeRr) := by
    induction rrs with
    | nil => rfl
    | cons rr rrs ih =>
      have hrr : wrRr rr = some (encodeRr rr) :=
        if_neg (Nat.not_lt.mpr (h rr (List.mem_cons_self ..)).fits)
      rw [List.mapM_cons, hrr, ih fun r hr => h r (List.mem_cons_of_mem _ hr)]
      rfl
  unfold wrSection
  rw [hmap, List.flatMap_def]
  rfl

/-- Packing writes the uncompressed encoding, unless it is too long. -/
theorem Msg.Canonical.msgPack {msg : Msg} (h : msg.Canonical) :
    msgPack msg = if (encode msg).length > maxMsg then .error .limit else .ok (encode msg) := by
  unfold Wire.msgPack
  rw [wrSection_canonical h.answers.2, wrSection_canonical h.authority.2,
    wrSection_canonical h.additional.2]
  rfl

theorem Rr.Canonical.reads {rr : Rr} (h : rr.Canonical) : Reads parseRr (encodeRr rr) rr := by
  have hlen : rr.rdata.length.toUInt16.toNat = rr.rdata.length := by
    rw [Nat.toUInt16_eq, UInt16.toNat_ofNat_of_lt' (Nat.lt_of_le_of_lt h.fits (by decide))]
  have hrdata : Reads (parseRdata rr.rtype rr.rdata.length.toUInt16.toNat) rr.rdata rr.rdata := by
    intro e pre post he
    rw [hlen]
    refine bind_eq_some.mpr ⟨_, _, rfl, bind_eq_some.mpr ⟨_, _, rfl, bind_eq_some.mpr ⟨(), _,
      ensure_eq_some.mpr ⟨?_, rfl⟩, ?_⟩⟩⟩
    · simp only [List.length_append]
      omega
    · split
      · next hc => exact (h.rdata hc).canonicalize pre post
      · exact Reads.take rfl e pre post he
  have hend := hrdata.bind (f := fun rdata => pure { rr with rdata }) (Reads.pure rr)
  rw [List.append_nil] at hend
  exact h.name.reads.bind ((reads_rdU16 _).bind ((reads_rdU16 _).bind ((reads_rdU32 _).bind
    ((reads_rdU16 _).bind hend))))

theorem reads_parseQuestion {q : Question} (h : IsName q.name) :
    Reads parseQuestion (wrQuestion q) q := by
  have hend := (reads_rdU16 q.qclass).bind (f := fun qclass => pure { q with qclass }) (Reads.pure q)
  rw [List.append_nil] at hend
  exact h.reads.bind ((reads_rdU16 _).bind hend)

def Msg.header (msg : Msg) : Header where
  id := msg.id
  flags := msg.flags
  qd := msg.questions.length.toUInt16
  an := msg.answers.length.toUInt16
  ns := msg.authority.length.toUInt16
  ar := msg.additional.length.toUInt16

theorem reads_rdHeader (msg : Msg) : Reads rdHeader (wrHeader msg) msg.header := by
  have hend := (reads_rdU16 msg.header.ar).bind (f := fun ar => pure { msg.header with ar })
    (Reads.pure msg.header)
  rw [List.append_nil] at hend
  exact (reads_rdU16 _).bind ((reads_rdU16 _).bind ((reads_rdU16 _).bind ((reads_rdU16 _).bind
    ((reads_rdU16 _).bind hend))))

theorem Msg.Canonical.reads_parseSections {msg : Msg} (h : msg.Canonical) :
    Reads (parseSections msg.header) (msg.questions.flatMap wrQuestion ++
      (msg.answers.flatMap encodeRr ++ (msg.authority.flatMap encodeRr ++
        msg.additional.flatMap encodeRr))) msg := by
  have hlen : ∀ {n : Nat}, n < 2 ^ 16 → n.toUInt16.toNat = n := fun {n} hn => by
    rw [Nat.toUInt16_eq, UInt16.toNat_ofNat_of_lt' hn]
  have hsection : ∀ {rrs : List Rr}, rrs.length < 2 ^ 16 ∧ (∀ rr ∈ rrs, rr.Canonical) →
      Reads (times parseRr rrs.length.toUInt16.toNat) (rrs.flatMap encodeRr) rrs :=
    fun {rrs} hrrs => by
      rw [hlen hrrs.1]
      exact Reads.times rrs fun rr hrr => (hrrs.2 rr hrr).reads
  have hquestions : Reads (times parseQuestion msg.questions.length.toUInt16.toNat)
      (msg.questions.flatMap wrQuestion) msg.questions := by
    rw [hlen h.questions.1]
    exact Reads.times _ fun q hq => reads_parseQuestion (h.questions.2 q hq)
  have hend := (hsection h.additional).bind
    (f := fun additional => pure { msg with additional }) (Reads.pure msg)
  rw [List.append_nil] at hend
  exact hquestions.bind ((hsection h.answers).bind ((hsection h.authority).bind hend))

theorem length_wrHeader (msg : Msg) : (wrHeader msg).length = headerLen := rfl

theorem encode_eq_wrHeader {msg : Msg} (h : (wrHeader msg).length = (encode msg).length) :
    { id := msg.header.id, flags := msg.header.flags, questions := [], answers := [],
      authority := [], additional := [] } = msg := by
  have hnil : ∀ rrs : List Rr, (rrs.flatMap encodeRr).length = 0 → rrs = [] := fun rrs hz => by
    rw [List.length_eq_zero_iff, List.flatMap_eq_nil_iff] at hz
    refine List.eq_nil_iff_forall_not_mem.mpr fun rr hrr => ?_
    have := congrArg List.length (hz rr hrr)
    simp [encodeRr, wrU16] at this
  have hqnil : (msg.questions.flatMap wrQuestion).length = 0 → msg.questions = [] := fun hz => by
    rw [List.length_eq_zero_iff, List.flatMap_eq_nil_iff] at hz
    refine List.eq_nil_iff_forall_not_mem.mpr fun q hq => ?_
    have := congrArg List.length (hz q hq)
    simp [wrQuestion, wrU16] at this
  simp only [encode, List.length_append] at h
  have hq := hqnil (by omega)
  have han := hnil msg.answers (by omega)
  have hns := hnil msg.authority (by omega)
  have har := hnil msg.additional (by omega)
  cases msg
  simp_all [Msg.header]

theorem Msg.Canonical.msgParse_encode {msg : Msg} (h : msg.Canonical)
    (hlen : (encode msg).length ≤ maxMsg) : msgParse (encode msg) = .ok msg := by
  have hparse : ∃ q, parseMsg (encode msg) 0 = some (msg, q) := by
    have hheader := reads_rdHeader msg (encode msg).length [] (msg.questions.flatMap wrQuestion ++
      (msg.answers.flatMap encodeRr ++ (msg.authority.flatMap encodeRr ++
        msg.additional.flatMap encodeRr))) (by
      simp only [encode, List.length_append, List.length_nil]; omega)
    have hsections := h.reads_parseSections (encode msg).length (wrHeader msg) [] (by
      simp only [encode, List.length_append]; omega)
    simp only [List.nil_append, List.length_nil, Nat.zero_add, List.append_nil] at hheader hsections
    by_cases hnone : (wrHeader msg).length = (encode msg).length
    · -- nothing behind the header: all sections are empty
      refine ⟨(wrHeader msg).length, bind_eq_some.mpr ⟨_, _, hheader, bind_eq_some.mpr ⟨_, _, rfl, bind_eq_some.mpr
        ⟨_, _, rfl, ?_⟩⟩⟩⟩
      rw [if_pos hnone, ← encode_eq_wrHeader hnone]
      rfl
    · obtain ⟨q, hq⟩ : ∃ q, parseSections msg.header (encode msg) (wrHeader msg).length =
        some (msg, q) := ⟨_, hsections⟩
      refine ⟨q, bind_eq_some.mpr ⟨_, _, hheader, bind_eq_some.mpr ⟨_, _, rfl, bind_eq_some.mpr
        ⟨_, _, rfl, ?_⟩⟩⟩⟩
      rw [if_neg hnone]
      exact hq
  obtain ⟨q, hq⟩ := hparse
  have hmin : ¬ (encode msg).length < headerLen := by
    rw [encode, List.length_append, length_wrHeader]
    omega
  unfold msgParse
  rw [if_neg (by omega), hq]

/-! ## Stripping -/

/-- The kept answers are at the front, the others still to come are untouched. -/
theorem stripLoop_spec (answers orig : List Rr) (rest i kept : Nat) (hrest : orig.length = i + rest)
    (hlen : answers.length = orig.length) (hki : kept ≤ i)
    (hfront : answers.take kept = (orig.take i).filter fun rr => rr.rtype ≠ typeAaaa)
    (hback : answers.drop i = orig.drop i) :
    (stripLoop rest answers i kept).1.take (stripLoop rest answers i kept).2 =
      orig.filter fun rr => rr.rtype ≠ typeAaaa := by
  induction rest generalizing answers i kept with
  | zero =>
    rw [stripLoop, hfront, List.take_of_length_le (by omega)]
  | succ rest ih =>
    have hi : i < orig.length := by omega
    have hget : answers[i]? = some orig[i] := by
      have := congrArg (·[0]?) hback
      simpa [List.getElem?_drop, hi] using this
    have htake : orig.take (i + 1) = orig.take i ++ [orig[i]] := List.take_succ_eq_append_getElem hi
    have hdrop : answers.drop (i + 1) = orig.drop (i + 1) := by
      rw [← List.drop_drop, hback, List.drop_drop]
    rw [stripLoop, hget]
    dsimp only
    split
    · next haaaa =>
      refine ih answers (i + 1) kept (by omega) hlen (by omega) ?_ hdrop
      rw [hfront, htake, List.filter_append]
      simp [haaaa]
    · next hkeep =>
      refine ih _ (i + 1) (kept + 1) (by omega) ?_ (by omega) ?_ ?_
      · split
        · rw [List.length_set, hlen]
        · exact hlen
      · rw [htake, List.filter_append, ← hfront]
        have hone : [orig[i]].filter (fun rr => rr.rtype ≠ typeAaaa) = [orig[i]] := by simp [hkeep]
        rw [hone]
        split
        · rw [List.take_succ_eq_append_getElem (by rw [List.length_set]; omega),
            List.take_set_of_le (Nat.le_refl _), List.getElem_set_self]
        · next heq =>
          obtain rfl : kept = i := not_not.mp heq
          rw [List.take_succ_eq_append_getElem (by omega)]
          congr 2
          exact (List.getElem?_eq_some_iff.mp hget).2
      · split
        · rw [List.drop_set_of_lt (by omega), hdrop]
        · exact hdrop

/-- **Stripping** takes the AAAA records out of the answers. -/
theorem msgStripAaaa_eq (msg : Msg) : msgStripAaaa msg =
    { msg with answers := msg.answers.filter fun rr => rr.rtype ≠ typeAaaa } := by
  have h := stripLoop_spec msg.answers msg.answers msg.answers.length 0 0 (by omega) rfl
    (Nat.le_refl _) rfl rfl
  unfold msgStripAaaa
  rw [← h]

theorem Msg.Canonical.msgStripAaaa {msg : Msg} (h : msg.Canonical) :
    (msgStripAaaa msg).Canonical := by
  rw [msgStripAaaa_eq]
  exact { h with answers := ⟨Nat.lt_of_le_of_lt (List.length_filter_le ..) h.answers.1,
    fun rr hrr => h.answers.2 rr (List.mem_of_mem_filter hrr)⟩ }

/-! ## Round trip -/

/-- Packing fails for length alone, and what is packed parses to the message. -/
def RoundTrips (msg : Msg) : Prop :=
  (msgPack msg = .error .limit ↔ (encode msg).length > maxMsg) ∧
    (msgPack msg = .error .limit ∨ ∃ bs, msgPack msg = .ok bs ∧ msgParse bs = .ok msg)

theorem Msg.Canonical.roundTrips {msg : Msg} (h : msg.Canonical) : RoundTrips msg := by
  unfold RoundTrips
  rw [h.msgPack]
  split
  · next hlong => exact ⟨iff_of_true rfl hlong, .inl rfl⟩
  · next hfits =>
    exact ⟨iff_of_false (fun he => nomatch he) hfits,
      .inr ⟨_, rfl, h.msgParse_encode (Nat.not_lt.mp hfits)⟩⟩

/-- **Messages survive parse and pack**, also after AAAA answers were stripped. -/
theorem parse_pack_roundTrips {buf : Bytes} {msg : Msg} (h : msgParse buf = .ok msg) :
    RoundTrips msg ∧ RoundTrips (msgStripAaaa msg) ∧
      msgStripAaaa msg = { msg with answers := msg.answers.filter fun rr => rr.rtype ≠ typeAaaa } :=
  have hc := canonical_of_msgParse h
  ⟨hc.roundTrips, hc.msgStripAaaa.roundTrips, msgStripAaaa_eq msg⟩

/-- A response for the name `a`: a CNAME to `b.a` and an AAAA record of that name, every name
compressed where it can be. -/
def compressedResponse : Bytes :=
  [0x12, 0x34, 0x81, 0x80, 0, 1, 0, 2, 0, 0, 0, 0,
    1, 97, 0, 0, 1, 0, 1,
    0xC0, 12, 0, 5, 0, 1, 0, 0, 0, 60, 0, 4, 1, 98, 0xC0, 12,
    0xC0, 31, 0, 28, 0, 1, 0, 0, 0, 60, 0, 16, 1, 2, 3, 4, 5, 6, 7, 8, 9, 10, 11, 12, 13, 14, 15, 16]

def decompressedResponse : Msg where
  id := 0x1234
  flags := 0x8180
  questions := [⟨[1, 97, 0], typeA, 1⟩]
  answers :=
    [⟨[1, 97, 0], typeCname, 1, 60, [1, 98, 1, 97, 0]⟩,
      ⟨[1, 98, 1, 97, 0], typeAaaa, 1, 60, [1, 2, 3, 4, 5, 6, 7, 8, 9, 10, 11, 12, 13, 14, 15, 16]⟩]
  authority := []
  additional := []

theorem parse_pack_roundTrips_compressed :
    msgParse compressedResponse = .ok decompressedResponse ∧
      (msgStripAaaa decompressedResponse).answers.length = 1 ∧
      RoundTrips decompressedResponse ∧ RoundTrips (msgStripAaaa decompressedResponse) :=
  have hparse : msgParse compressedResponse = .ok decompressedResponse := by decide +kernel
  have h := parse_pack_roundTrips hparse
  ⟨hparse, by decide, h.1, h.2.1⟩

end MagiTrickle.Dns.Wire
