import MagiTrickle.Dns.WireRoundTrip

/-!
# Decompression of names

`Expands` is the expansion of RFC 1035: labels, pointers to other places of the
message, and the root. `rd_name` computes it within its bounds, 32 jumps and 255
octets, and looks at no octet behind the end of the message (`rdName_exact`).
-/

namespace MagiTrickle.Dns.Wire

open Lib

/-- The name at an offset has these labels, takes this many jumps, and ends in place at `after`:
behind its first pointer, or behind the root. -/
inductive Expands (buf : Bytes) : Nat → List Bytes → Nat → Nat → Prop where
  | root {pos : Nat} (byte : buf[pos]? = some 0) : Expands buf pos [] 0 (pos + 1)
  | label {pos : Nat} {len8 : UInt8} {labels : List Bytes} {jumps after : Nat}
      (byte : buf[pos]? = some len8) (nonzero : 1 ≤ len8.toNat) (short : len8.toNat ≤ 63)
      (inside : pos + 1 + len8.toNat ≤ buf.length)
      (rest : Expands buf (pos + 1 + len8.toNat) labels jumps after) :
      Expands buf pos ((buf.drop (pos + 1)).take len8.toNat :: labels) jumps after
  | pointer {pos : Nat} {high low : UInt8} {labels : List Bytes} {jumps after : Nat}
      (byte : buf[pos]? = some high) (isPointer : 192 ≤ high.toNat)
      (next : buf[pos + 1]? = some low)
      (rest : Expands buf ((high.toNat - 192) * 256 + low.toNat) labels jumps after) :
      Expands buf pos labels (jumps + 1) (pos + 2)

/-- The labels with their lengths, and the root label. -/
def wireName (labels : List Bytes) : Bytes :=
  (labels.flatMap fun l => UInt8.ofNat l.length :: l) ++ [0]

/-! ## Octets -/

/-- The two high bits of an octet tell what follows. -/
theorem octet_kind (b : UInt8) :
    (192 ≤ b.toNat ∧ b &&& 0xC0 = 0xC0 ∧ (b &&& 0x3F).toNat = b.toNat - 192) ∨
      (64 ≤ b.toNat ∧ b.toNat < 192 ∧ b &&& 0xC0 ≠ 0xC0 ∧ b &&& 0xC0 ≠ 0) ∨
      (b.toNat < 64 ∧ b &&& 0xC0 ≠ 0xC0 ∧ b &&& 0xC0 = 0) := by
  have hall : ∀ n < 256,
      (192 ≤ (UInt8.ofNat n).toNat ∧ UInt8.ofNat n &&& 0xC0 = 0xC0 ∧
        (UInt8.ofNat n &&& 0x3F).toNat = (UInt8.ofNat n).toNat - 192) ∨
      (64 ≤ (UInt8.ofNat n).toNat ∧ (UInt8.ofNat n).toNat < 192 ∧
        UInt8.ofNat n &&& 0xC0 ≠ 0xC0 ∧ UInt8.ofNat n &&& 0xC0 ≠ 0) ∨
      ((UInt8.ofNat n).toNat < 64 ∧ UInt8.ofNat n &&& 0xC0 ≠ 0xC0 ∧
        UInt8.ofNat n &&& 0xC0 = 0) := by
    decide +kernel
  have hb := hall b.toNat b.toNat_lt
  rwa [UInt8.ofNat_toNat] at hb

theorem pointer_target {high low : UInt8} (h : (high &&& 0x3F).toNat = high.toNat - 192) :
    (high &&& 0x3F).toNat <<< 8 ||| low.toNat = (high.toNat - 192) * 256 + low.toNat := by
  rw [or_eq_add low.toNat_lt, h]
  rfl

/-! ## The expansion at an octet -/

section Expands

variable {buf : Bytes} {pos : Nat} {labels : List Bytes} {jumps after : Nat}

theorem Expands.lt_length (h : Expands buf pos labels jumps after) : pos < buf.length := by
  cases h with
  | root byte => exact (List.getElem?_eq_some_iff.mp byte).1
  | label byte => exact (List.getElem?_eq_some_iff.mp byte).1
  | pointer byte => exact (List.getElem?_eq_some_iff.mp byte).1

theorem expands_root_iff (hb : buf[pos]? = some 0) :
    Expands buf pos labels jumps after ↔ labels = [] ∧ jumps = 0 ∧ after = pos + 1 := by
  refine ⟨fun h => ?_, ?_⟩
  · cases h with
    | root => exact ⟨rfl, rfl, rfl⟩
    | label byte nonzero =>
      cases hb.symm.trans byte
      exact absurd nonzero (by decide)
    | pointer byte isPointer =>
      cases hb.symm.trans byte
      exact absurd isPointer (by decide)
  · rintro ⟨rfl, rfl, rfl⟩
    exact .root hb

theorem expands_label_iff {len8 : UInt8} (hb : buf[pos]? = some len8) (hpos : 1 ≤ len8.toNat)
    (hlt : len8.toNat < 64) :
    Expands buf pos labels jumps after ↔ pos + 1 + len8.toNat ≤ buf.length ∧
      ∃ rest, labels = (buf.drop (pos + 1)).take len8.toNat :: rest ∧
        Expands buf (pos + 1 + len8.toNat) rest jumps after := by
  refine ⟨fun h => ?_, ?_⟩
  · cases h with
    | root byte =>
      cases hb.symm.trans byte
      exact absurd hpos (by decide)
    | label byte nonzero short inside rest =>
      cases hb.symm.trans byte
      exact ⟨inside, _, rfl, rest⟩
    | pointer byte isPointer =>
      cases hb.symm.trans byte
      omega
  · rintro ⟨inside, rest, rfl, h⟩
    exact .label hb hpos (by omega) inside h

theorem expands_pointer_iff {high : UInt8} (hb : buf[pos]? = some high) (hp : 192 ≤ high.toNat) :
    Expands buf pos labels jumps after ↔ ∃ low, buf[pos + 1]? = some low ∧
      ∃ jumps' after', jumps = jumps' + 1 ∧ after = pos + 2 ∧
        Expands buf ((high.toNat - 192) * 256 + low.toNat) labels jumps' after' := by
  refine ⟨fun h => ?_, ?_⟩
  · cases h with
    | root byte =>
      cases hb.symm.trans byte
      exact absurd hp (by decide)
    | label byte nonzero short =>
      cases hb.symm.trans byte
      omega
    | pointer byte isPointer next rest =>
      cases hb.symm.trans byte
      exact ⟨_, next, _, _, rfl, rfl, rest⟩
  · rintro ⟨low, next, jumps', after', rfl, rfl, rest⟩
    exact .pointer hb hp next rest

theorem not_expands_of_reserved {b : UInt8} (hb : buf[pos]? = some b) (hlo : 64 ≤ b.toNat)
    (hhi : b.toNat < 192) : ¬ Expands buf pos labels jumps after := by
  intro h
  cases h with
  | root byte =>
    cases hb.symm.trans byte
    exact absurd hlo (by decide)
  | label byte nonzero short =>
    cases hb.symm.trans byte
    omega
  | pointer byte isPointer =>
    cases hb.symm.trans byte
    omega

end Expands

/-! ## The loop computes the expansion -/

theorem wireName_cons {l : Bytes} (labels : List Bytes) {len8 : UInt8} (h : l.length = len8.toNat) :
    wireName (l :: labels) = len8 :: (l ++ wireName labels) := by
  unfold wireName
  rw [List.flatMap_cons, h, UInt8.ofNat_toNat, List.cons_append, List.cons_append,
    List.append_assoc]

/-- What the loop is to return: the expansion at `pos` behind `out`, within the bounds. -/
def Named (buf : Bytes) (pos : Nat) (out : Bytes) (jumps : Nat) (after : Option Nat)
    (name : Bytes) (q : Nat) : Prop :=
  ∃ labels k e, Expands buf pos labels k e ∧ (k = 0 ∨ jumps + k ≤ maxPointerJumps) ∧
    name = out ++ wireName labels ∧ name.length ≤ maxName ∧ q = after.getD e

section Named

variable {buf : Bytes} {pos : Nat} {out : Bytes} {jumps : Nat} {after : Option Nat} {name : Bytes}
  {q : Nat}

theorem Named.lt_length (h : Named buf pos out jumps after name q) : pos < buf.length := by
  obtain ⟨labels, k, e, hexp, -⟩ := h
  exact hexp.lt_length

/-- The octets of a pointer are there, and a jump is left. -/
theorem Named.of_pointer {high : UInt8} (h : Named buf pos out jumps after name q)
    (hb : buf[pos]? = some high) (hp : 192 ≤ high.toNat) :
    jumps + 1 ≤ maxPointerJumps ∧ ∃ low, buf[pos + 1]? = some low ∧
      Named buf ((high.toNat - 192) * 256 + low.toNat) out (jumps + 1)
        (some (after.getD (pos + 2))) name q := by
  obtain ⟨labels, k, e, hexp, hk, hname, hlen, hq⟩ := h
  obtain ⟨low, hlow, k', e', rfl, rfl, hrest⟩ := (expands_pointer_iff hb hp).mp hexp
  have hk : jumps + (k' + 1) ≤ maxPointerJumps := hk.resolve_left (Nat.succ_ne_zero k')
  refine ⟨by omega, low, hlow, labels, k', e', hrest, .inr ?_, hname, hlen, hq⟩
  omega

theorem named_pointer_iff {high low : UInt8} (hb : buf[pos]? = some high) (hp : 192 ≤ high.toNat)
    (hlow : buf[pos + 1]? = some low) (hj : jumps + 1 ≤ maxPointerJumps) :
    Named buf pos out jumps after name q ↔ Named buf ((high.toNat - 192) * 256 + low.toNat) out
      (jumps + 1) (some (after.getD (pos + 2))) name q := by
  refine ⟨fun h => ?_, ?_⟩
  · obtain ⟨-, low', hlow', h⟩ := h.of_pointer hb hp
    cases hlow.symm.trans hlow'
    exact h
  · rintro ⟨labels, k, e, hexp, hk, hname, hlen, hq⟩
    refine ⟨labels, k + 1, pos + 2, (expands_pointer_iff hb hp).mpr ⟨low, hlow, k, e, rfl, rfl, hexp⟩,
      .inr ?_, hname, hlen, hq⟩
    omega

theorem not_named_of_reserved {b : UInt8} (hb : buf[pos]? = some b) (hlo : 64 ≤ b.toNat)
    (hhi : b.toNat < 192) : ¬ Named buf pos out jumps after name q := by
  rintro ⟨labels, k, e, hexp, -⟩
  exact not_expands_of_reserved hb hlo hhi hexp

theorem named_root_iff (hb : buf[pos]? = some 0) :
    Named buf pos out jumps after name q ↔
      out.length + 1 ≤ maxName ∧ name = out ++ [0] ∧ q = after.getD (pos + 1) := by
  refine ⟨?_, ?_⟩
  · rintro ⟨labels, k, e, hexp, -, rfl, hlen, rfl⟩
    obtain ⟨rfl, rfl, rfl⟩ := (expands_root_iff hb).mp hexp
    rw [List.length_append] at hlen
    exact ⟨hlen, rfl, rfl⟩
  · rintro ⟨hlen, rfl, rfl⟩
    refine ⟨[], 0, pos + 1, .root hb, .inl rfl, rfl, ?_, rfl⟩
    rwa [List.length_append]

theorem named_label_iff {len8 : UInt8} (hb : buf[pos]? = some len8) (hpos : 1 ≤ len8.toNat)
    (hlt : len8.toNat < 64) :
    Named buf pos out jumps after name q ↔ pos + 1 + len8.toNat ≤ buf.length ∧
      Named buf (pos + 1 + len8.toNat) (out ++ len8 :: (buf.drop (pos + 1)).take len8.toNat) jumps
        after name q := by
  have hcons : pos + 1 + len8.toNat ≤ buf.length → ∀ rest,
      out ++ wireName ((buf.drop (pos + 1)).take len8.toNat :: rest) =
        (out ++ len8 :: (buf.drop (pos + 1)).take len8.toNat) ++ wireName rest := by
    intro hin rest
    have htake : ((buf.drop (pos + 1)).take len8.toNat).length = len8.toNat := by
      rw [List.length_take, List.length_drop]
      omega
    rw [wireName_cons rest htake, List.append_assoc, List.cons_append]
  refine ⟨?_, ?_⟩
  · rintro ⟨labels, k, e, hexp, hk, hname, hlen, hq⟩
    obtain ⟨hin, rest, rfl, hrest⟩ := (expands_label_iff hb hpos hlt).mp hexp
    exact ⟨hin, rest, k, e, hrest, hk, hname.trans (hcons hin rest), hlen, hq⟩
  · rintro ⟨hin, rest, k, e, hexp, hk, hname, hlen, hq⟩
    refine ⟨_, k, e, (expands_label_iff hb hpos hlt).mpr ⟨hin, rest, rfl, hexp⟩, hk, ?_, hlen, hq⟩
    exact hname.trans (hcons hin rest).symm

theorem Named.length_lt (h : Named buf pos out jumps after name q) : out.length + 1 ≤ maxName := by
  obtain ⟨labels, k, e, -, -, rfl, hlen, -⟩ := h
  rw [List.length_append, wireName, List.length_append, List.length_singleton] at hlen
  omega

end Named

theorem rdNameLoop_eq_some_iff (buf : Bytes) {fuel pos : Nat} {out : Bytes} {jumps : Nat}
    {after : Option Nat} {name : Bytes} {q : Nat}
    (hfuel : (maxPointerJumps - jumps) + (maxName - out.length) < fuel) :
    rdNameLoop buf fuel pos out jumps after = some (name, q) ↔
      Named buf pos out jumps after name q := by
  induction fuel generalizing pos out jumps after with
  | zero => omega
  | succ fuel ih =>
    rw [rdNameLoop]
    cases hb : buf[pos]? with
    | none =>
      refine iff_of_false (fun h => by cases h) fun h => ?_
      rw [List.getElem?_eq_getElem h.lt_length] at hb
      cases hb
    | some len8 =>
      dsimp only
      rcases octet_kind len8 with ⟨hge, hC0, h3F⟩ | ⟨hlo, hhi, hC0, hne⟩ | ⟨hlt, hC0, h0⟩
      · -- a pointer
        rw [if_pos hC0]
        cases hb₁ : buf[pos + 1]? with
        | none =>
          refine iff_of_false (fun h => by cases h) fun h => ?_
          obtain ⟨-, low, hlow, -⟩ := h.of_pointer hb hge
          cases hb₁.symm.trans hlow
        | some low =>
          dsimp only
          rw [pointer_target h3F]
          by_cases hj : jumps + 1 > maxPointerJumps
          · rw [if_pos hj]
            refine iff_of_false (fun h => by cases h) fun h => ?_
            exact absurd (h.of_pointer hb hge).1 (by omega)
          · rw [if_neg hj, named_pointer_iff hb hge hb₁ (by omega)]
            split
            · next hout =>
              exact iff_of_false (fun h => by cases h) fun h => absurd h.lt_length (by omega)
            · exact ih (by unfold maxPointerJumps at *; omega)
      · -- a reserved type of label
        rw [if_neg hC0, if_pos hne]
        exact iff_of_false (fun h => by cases h) (not_named_of_reserved hb hlo hhi)
      · rw [if_neg hC0, if_neg (not_not.mpr h0)]
        by_cases hz : len8 = 0
        · -- the root
          subst hz
          rw [if_pos rfl, named_root_iff hb]
          split
          · next hfull => exact iff_of_false (fun h => by cases h) fun h => absurd h.1 (by omega)
          · next hroom =>
            rw [and_iff_right (by omega), Option.some.injEq, Prod.mk.injEq]
            exact and_congr eq_comm eq_comm
        · -- a label
          have hpos : 1 ≤ len8.toNat := Nat.one_le_iff_ne_zero.mpr fun h =>
            hz (UInt8.toNat_inj.mp h)
          rw [if_neg hz, named_label_iff hb hpos hlt]
          by_cases hin : pos + 1 + len8.toNat > buf.length
          · rw [if_pos hin]
            exact iff_of_false (fun h => by cases h) fun h => absurd h.1 (by omega)
          · have hlen : (out ++ len8 :: (buf.drop (pos + 1)).take len8.toNat).length =
                out.length + (1 + len8.toNat) := by
              rw [List.length_append, List.length_cons, List.length_take, List.length_drop]
              omega
            rw [if_neg hin, and_iff_right (by omega)]
            by_cases hfit : out.length + 1 + len8.toNat + 1 > maxName + 1
            · rw [if_pos hfit]
              exact iff_of_false (fun h => by cases h) fun h => absurd h.length_lt (by omega)
            · rw [if_neg hfit]
              refine ih ?_
              unfold maxName at *
              omega

/-! ## The octets looked at -/

/-- The loop of `rd_name` on the memory of the message: an octet is loaded wherever the source loads
one, whether or not it is there, and its index is recorded. `none` is a loop that is still
running when the fuel is used up. -/
def rdNameRaw (buf : Bytes) :
    Nat → Nat → Bytes → Nat → Option Nat → Option (List Nat × Option (Bytes × Nat))
  | 0, _, _, _, _ => none
  | fuel + 1, pos, out, jumps, after =>
    if pos ≥ buf.length then some ([], none)
    else
      let len8 := buf.getD pos 0
      if len8 &&& 0xC0 = 0xC0 then
        if pos + 2 > buf.length then some ([pos], none)
        else if jumps + 1 > maxPointerJumps then some ([pos], none)
        else
          let target := (len8 &&& 0x3F).toNat <<< 8 ||| (buf.getD (pos + 1) 0).toNat
          if target ≥ buf.length then some ([pos, pos + 1], none)
          else
            (rdNameRaw buf fuel target out (jumps + 1) (some (after.getD (pos + 2)))).map
              fun r => (pos :: (pos + 1) :: r.1, r.2)
      else if len8 &&& 0xC0 ≠ 0 then some ([pos], none)
      else if len8 = 0 then
        if out.length + 1 > maxName then some ([pos], none)
        else some ([pos], some (out ++ [0], after.getD (pos + 1)))
      else if pos + 1 + len8.toNat > buf.length then some ([pos], none)
      else if out.length + 1 + len8.toNat + 1 > maxName + 1 then some ([pos], none)
      else
        let copied := (List.range len8.toNat).map (pos + 1 + ·)
        (rdNameRaw buf fuel (pos + 1 + len8.toNat)
          (out ++ len8 :: copied.map fun i => buf.getD i 0) jumps after).map
            fun r => (pos :: (copied ++ r.1), r.2)

/-- The loop has ended with this result, and every octet it loaded is one of the message. -/
def EndsInside (buf : Bytes) (ran : Option (List Nat × Option (Bytes × Nat)))
    (result : Option (Bytes × Nat)) : Prop :=
  ∃ loads, ran = some (loads, result) ∧ ∀ i ∈ loads, i < buf.length

theorem EndsInside.map {buf : Bytes} {ran : Option (List Nat × Option (Bytes × Nat))}
    {result : Option (Bytes × Nat)} {before : List Nat} (h : EndsInside buf ran result)
    (hbefore : ∀ i ∈ before, i < buf.length) :
    EndsInside buf (ran.map fun r => (before ++ r.1, r.2)) result := by
  obtain ⟨loads, rfl, hloads⟩ := h
  refine ⟨before ++ loads, rfl, fun i hi => ?_⟩
  rcases List.mem_append.mp hi with hi | hi
  · exact hbefore i hi
  · exact hloads i hi

theorem endsInside_of_lt {buf : Bytes} {pos : Nat} (h : pos < buf.length)
    (result : Option (Bytes × Nat)) : EndsInside buf (some ([pos], result)) result :=
  ⟨[pos], rfl, fun _ hi => List.mem_singleton.mp hi ▸ h⟩

theorem map_getD_range {buf : Bytes} {pos n : Nat} (h : pos + n ≤ buf.length) :
    ((List.range n).map (pos + ·)).map (fun i => buf.getD i 0) = (buf.drop pos).take n := by
  refine List.ext_getElem ?_ fun i hi hi' => ?_
  · rw [List.length_map, List.length_map, List.length_range, List.length_take, List.length_drop]
    omega
  · simp only [List.length_map, List.length_range] at hi
    rw [List.getElem_map, List.getElem_map, List.getElem_range, List.getElem_take,
      List.getElem_drop, List.getD_eq_getElem?_getD, List.getElem?_eq_getElem (by omega)]
    rfl

theorem getElem?_eq_getD {buf : Bytes} {pos : Nat} (h : pos < buf.length) :
    buf[pos]? = some (buf.getD pos 0) := by
  rw [List.getD_eq_getElem?_getD, List.getElem?_eq_getElem h]
  rfl

/-- Every round uses up a jump or room in the name, so the loop ends; what it loads is in the
message, and its result is that of the loop on lists. -/
theorem rdNameRaw_endsInside (buf : Bytes) {fuel : Nat} (pos : Nat) (out : Bytes) (jumps : Nat)
    (after : Option Nat) (hfuel : (maxPointerJumps - jumps) + (maxName - out.length) < fuel) :
    EndsInside buf (rdNameRaw buf fuel pos out jumps after)
      (rdNameLoop buf fuel pos out jumps after) := by
  induction fuel generalizing pos out jumps after with
  | zero => omega
  | succ fuel ih =>
    rw [rdNameRaw, rdNameLoop]
    by_cases hpos : pos ≥ buf.length
    · rw [if_pos hpos, List.getElem?_eq_none hpos]
      exact ⟨[], rfl, fun i hi => absurd hi List.not_mem_nil⟩
    · rw [if_neg hpos]
      have hlt : pos < buf.length := by omega
      rw [getElem?_eq_getD hlt]
      dsimp only
      generalize buf.getD pos 0 = len8
      split
      · -- a pointer
        by_cases hnext : pos + 2 > buf.length
        · rw [if_pos hnext, List.getElem?_eq_none (by omega)]
          exact endsInside_of_lt hlt _
        · have hlt₁ : pos + 1 < buf.length := by omega
          rw [if_neg hnext, getElem?_eq_getD hlt₁]
          dsimp only
          have hboth : ∀ i ∈ [pos, pos + 1], i < buf.length := by
            intro i hi
            simp only [List.mem_cons, List.not_mem_nil, or_false] at hi
            omega
          split
          · exact endsInside_of_lt hlt _
          · split
            · exact ⟨_, rfl, hboth⟩
            · exact (ih _ _ _ _ (by unfold maxPointerJumps at *; omega)).map hboth
      · split
        · exact endsInside_of_lt hlt _
        · split
          · split
            · exact endsInside_of_lt hlt _
            · exact endsInside_of_lt hlt _
          · next hne =>
            have hone : len8.toNat ≠ 0 := fun h0 => hne (UInt8.toNat_inj.mp h0)
            split
            · exact endsInside_of_lt hlt _
            · next hin =>
              split
              · exact endsInside_of_lt hlt _
              · -- a label, copied octet by octet
                rw [map_getD_range (by omega)]
                refine @EndsInside.map _ _ _ (pos :: (List.range len8.toNat).map (pos + 1 + ·))
                  (ih _ _ _ _ ?_) fun i hi => ?_
                · rw [List.length_append, List.length_cons, List.length_take, List.length_drop]
                  unfold maxName at *
                  omega
                · rcases List.mem_cons.mp hi with rfl | hi
                  · exact hlt
                  · obtain ⟨k, hk, rfl⟩ := List.mem_map.mp hi
                    have hk' := List.mem_range.mp hk
                    omega

/-! ## The result -/

/-- `rd_name` ends and stays in the message, whatever the message and the offset, and it succeeds
exactly on the expansions within its bounds. -/
theorem rdName_exact (buf : Bytes) (pos : Nat) :
    (∀ fuel ≥ nameFuel, EndsInside buf (rdNameRaw buf fuel pos [] 0 none) (rdName buf pos)) ∧
      ∀ name after, rdName buf pos = some (name, after) ↔
        ∃ labels jumps, Expands buf pos labels jumps after ∧ jumps ≤ 32 ∧
          name = wireName labels ∧ name.length ≤ 255 := by
  have hroom : ∀ fuel ≥ nameFuel,
      (maxPointerJumps - 0) + (maxName - ([] : Bytes).length) < fuel := by
    intro fuel hfuel
    unfold nameFuel at hfuel
    rw [List.length_nil]
    omega
  refine ⟨fun fuel hfuel => ?_, fun name after => ?_⟩
  · have hsame : rdNameLoop buf fuel pos [] 0 none = rdName buf pos := by
      obtain ⟨extra, rfl⟩ := Nat.exists_eq_add_of_le hfuel
      clear hfuel
      induction extra with
      | zero => rfl
      | succ extra ih =>
        rw [← Nat.add_assoc, rdNameLoop_fuel buf _ pos [] 0 none (hroom _ (by omega)), ih]
    rw [← hsame]
    exact rdNameRaw_endsInside buf pos [] 0 none (hroom fuel hfuel)
  · rw [rdName, rdNameLoop_eq_some_iff buf (hroom nameFuel (Nat.le_refl _))]
    refine ⟨?_, ?_⟩
    · rintro ⟨labels, k, e, hexp, hk, hname, hlen, rfl⟩
      refine ⟨labels, k, hexp, ?_, hname, hlen⟩
      unfold maxPointerJumps at hk
      omega
    · rintro ⟨labels, k, hexp, hk, hname, hlen⟩
      refine ⟨labels, k, after, hexp, .inr ?_, hname, hlen, rfl⟩
      unfold maxPointerJumps
      omega

end MagiTrickle.Dns.Wire
