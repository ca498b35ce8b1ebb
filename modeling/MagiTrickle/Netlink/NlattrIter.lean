import MagiTrickle.Core.Basic
import Mathlib.Data.Nat.Bitwise
import Mathlib.Tactic.Common

/-!
# The attribute iterator (`netlink/nlattr_iter.c`)

A message is the bytes of its buffer, and a cursor an offset into it. A read of
a field that is not in the buffer has no value, so a run that has a result has
read inside the buffer only. `nlattrIter_exact` says what the loop over
`mt_nlattr_iter_next` yields for a message, or a nested attribute, whose own
length does not exceed its buffer.
-/

namespace MagiTrickle.Netlink

/-! ## Fields -/

inductive Endian where
  | little | big
  deriving DecidableEq, Repr

def Endian.nat : Endian → Bytes → Nat
  | little, bs => bs.foldr (fun b n => b.toNat + 256 * n) 0
  | big, bs => bs.foldl (fun n b => 256 * n + b.toNat) 0

def readField (buf : Bytes) (off size : Nat) : Option Bytes :=
  if off + size ≤ buf.length then some ((buf.drop off).take size) else none

/-- `nlmsg_len` of the message at the start of the buffer. -/
def nlmsgLen (e : Endian) (buf : Bytes) : Option Nat := (readField buf 0 4).map e.nat

/-- `nla_len` of the attribute at an offset. -/
def nlaLen (e : Endian) (buf : Bytes) (off : Nat) : Option Nat := (readField buf off 2).map e.nat

/-- `align_len`; the mask is an `unsigned int`. -/
def alignLen (len : Nat) : Nat := (len + 4 - 1) &&& 0xFFFFFFFC

/-! ## The iterator -/

/-- `mt_nlattr_iter_t`. -/
structure NlattrIter where
  cursor : Option Nat
  remaining : Nat
  deriving DecidableEq, Repr

/-- `mt_nlattr_iter_init_nlmsg`. -/
def initNlmsg (e : Endian) (buf : Bytes) (extraHeaderLen : Nat) : Option (NlattrIter × Bool) :=
  (nlmsgLen e buf).map fun len =>
    let offset := alignLen 16 + alignLen extraHeaderLen
    if len < offset then (⟨none, 0⟩, false) else (⟨some offset, len - offset⟩, true)

/-- `mt_nlattr_iter_init_nested`. -/
def initNested (e : Endian) (buf : Bytes) (nest : Nat) : Option (NlattrIter × Bool) :=
  (nlaLen e buf nest).map fun len =>
    let headerLen := alignLen 4
    if len < headerLen then (⟨none, 0⟩, false)
    else (⟨some (nest + headerLen), len - headerLen⟩, true)

/-- `mt_nlattr_iter_next`: the iterator after it, and the attribute if there is one. -/
def iterNext (e : Endian) (buf : Bytes) (it : NlattrIter) : Option (NlattrIter × Option Nat) :=
  let headerLen := alignLen 4
  match it.cursor with
  | none => some (⟨none, 0⟩, none)
  | some cursor =>
    if it.remaining < headerLen then some (⟨some cursor, 0⟩, none)
    else (nlaLen e buf cursor).map fun attrLen =>
      if attrLen < headerLen ∨ attrLen > it.remaining then (⟨some cursor, 0⟩, none)
      else
        let step := alignLen attrLen
        if step ≥ it.remaining then (⟨some (cursor + it.remaining), 0⟩, some cursor)
        else (⟨some (cursor + step), it.remaining - step⟩, some cursor)

/-- The attributes that `while (mt_nlattr_iter_next(...))` sees, in at most `fuel` calls. -/
def iterate (e : Endian) (buf : Bytes) : Nat → NlattrIter → Option (List Nat)
  | 0, _ => none
  | fuel + 1, it =>
    match iterNext e buf it with
    | none => none
    | some (_, none) => some []
    | some (it', some attr) => (iterate e buf fuel it').map (attr :: ·)

/-! ## Alignment -/

theorem alignLen_eq {len : Nat} (h : len + 3 < 2 ^ 32) : alignLen len = (len + 3) / 4 * 4 := by
  have hmask : (0xFFFFFFFC : Nat) = (2 ^ 30 - 1) <<< 2 := by decide
  have hdiv : (len + 3) / 4 * 4 = ((len + 3) >>> 2) <<< 2 := by
    rw [Nat.shiftRight_eq_div_pow, Nat.shiftLeft_eq]
  rw [alignLen, show len + 4 - 1 = len + 3 by omega, hmask, hdiv]
  refine Nat.eq_of_testBit_eq fun i => ?_
  rw [Nat.testBit_and, Nat.testBit_shiftLeft, Nat.testBit_shiftLeft, Nat.testBit_two_pow_sub_one,
    Nat.testBit_shiftRight]
  by_cases hi : 2 ≤ i
  · rw [show 2 + (i - 2) = i by omega]
    by_cases hlt : i - 2 < 30
    · simp [hi, hlt]
    · have hzero : (len + 3).testBit i = false :=
        Nat.testBit_lt_two_pow (lt_of_lt_of_le h (Nat.pow_le_pow_right (by decide) (by omega)))
      simp [hzero]
  · simp [hi]

theorem alignLen_header : alignLen 4 = 4 := by decide

theorem nat_lt (e : Endian) (bs : Bytes) : e.nat bs < 256 ^ bs.length := by
  cases e with
  | little =>
    show bs.foldr _ 0 < _
    induction bs with
    | nil => decide
    | cons b bs ih =>
      have hb := b.toNat_lt
      rw [List.foldr_cons, List.length_cons, Nat.pow_succ]
      omega
  | big =>
    have hrun : ∀ (bs : Bytes) (n : Nat),
        bs.foldl (fun n b => 256 * n + b.toNat) n < (n + 1) * 256 ^ bs.length := by
      intro bs
      induction bs with
      | nil =>
        intro n
        simp
      | cons b bs ih =>
        intro n
        have hb := b.toNat_lt
        have hstep := ih (256 * n + b.toNat)
        rw [List.foldl_cons, List.length_cons, Nat.pow_succ]
        refine hstep.trans_le ?_
        calc (256 * n + b.toNat + 1) * 256 ^ bs.length
            ≤ ((n + 1) * 256) * 256 ^ bs.length := Nat.mul_le_mul_right _ (by omega)
          _ = (n + 1) * (256 ^ bs.length * 256) := by rw [Nat.mul_assoc, Nat.mul_comm 256]
    have hstart := hrun bs 0
    rw [Nat.zero_add, Nat.one_mul] at hstart
    exact hstart

theorem nlaLen_lt {e : Endian} {buf : Bytes} {off len : Nat} (h : nlaLen e buf off = some len) :
    len < 2 ^ 16 := by
  obtain ⟨bs, hbs, rfl⟩ := Option.map_eq_some_iff.mp h
  unfold readField at hbs
  split at hbs
  · cases hbs
    refine (nat_lt e _).trans_le ?_
    rw [List.length_take]
    exact Nat.pow_le_pow_right (by decide) (Nat.min_le_left ..)
  · cases hbs

theorem le_alignLen {e : Endian} {buf : Bytes} {off len : Nat} (h : nlaLen e buf off = some len) :
    len ≤ alignLen len ∧ alignLen len < len + 4 := by
  have hlt := nlaLen_lt h
  rw [alignLen_eq (by omega)]
  omega

/-! ## One call -/

def Fits (buf : Bytes) (it : NlattrIter) : Prop :=
  ∀ cursor, it.cursor = some cursor → cursor + it.remaining ≤ buf.length

section Next

variable {e : Endian} {buf : Bytes} {it : NlattrIter}

/-- What a call can do: it ends the loop, or yields the attribute at the cursor, whose whole length
remains. -/
theorem iterNext_cases (h : Fits buf it) :
    (∃ it', iterNext e buf it = some (it', none)) ∨
      ∃ cursor len, it.cursor = some cursor ∧ nlaLen e buf cursor = some len ∧ 4 ≤ len ∧
        len ≤ it.remaining ∧ iterNext e buf it =
          some (⟨some (cursor + min (alignLen len) it.remaining), it.remaining - alignLen len⟩,
            some cursor) := by
  unfold iterNext
  simp only [alignLen_header]
  cases hc : it.cursor with
  | none => exact .inl ⟨_, rfl⟩
  | some cursor =>
    simp only
    by_cases hrem : it.remaining < 4
    · exact .inl ⟨_, if_pos hrem⟩
    · have hfits := h cursor hc
      have hread : nlaLen e buf cursor = some (e.nat ((buf.drop cursor).take 2)) := by
        rw [nlaLen, readField, if_pos (by omega)]
        rfl
      rw [if_neg hrem, hread, Option.map_some]
      generalize hlen : e.nat ((buf.drop cursor).take 2) = len at hread ⊢
      by_cases hbad : len < 4 ∨ len > it.remaining
      · exact .inl ⟨_, by rw [if_pos hbad]⟩
      · rw [not_or] at hbad
        refine .inr ⟨cursor, len, rfl, hread, by omega, by omega, ?_⟩
        rw [if_neg (not_or.mpr hbad)]
        by_cases hstep : alignLen len ≥ it.remaining
        · rw [if_pos hstep, Nat.min_eq_right hstep, Nat.sub_eq_zero_of_le hstep]
        · rw [if_neg hstep, Nat.min_eq_left (by omega)]

def Inside (e : Endian) (buf : Bytes) (it : NlattrIter) (attr : Nat) : Prop :=
  ∃ start len, it.cursor = some start ∧ nlaLen e buf attr = some len ∧ 4 ≤ len ∧ start ≤ attr ∧
    attr + len ≤ start + it.remaining ∧ start + it.remaining ≤ buf.length

def Before (e : Endian) (buf : Bytes) (attr attr' : Nat) : Prop :=
  ∃ len, nlaLen e buf attr = some len ∧ attr + len ≤ attr'

/-- The loop ends, with attributes inside the payload that follow each other. -/
theorem iterate_spec (h : Fits buf it) :
    ∃ attrs, (∀ fuel, it.remaining < fuel → iterate e buf fuel it = some attrs) ∧
      (∀ attr ∈ attrs, Inside e buf it attr) ∧ attrs.Pairwise (Before e buf) := by
  induction hn : it.remaining using Nat.strongRecOn generalizing it with
  | ind n ih =>
    subst hn
    rcases iterNext_cases (e := e) h with ⟨it', hnext⟩ | ⟨cursor, len, hc, hlen, h4, hle, hnext⟩
    · refine ⟨[], fun fuel hfuel => ?_, by simp, .nil⟩
      obtain ⟨fuel, rfl⟩ : ∃ k, fuel = k + 1 := ⟨fuel - 1, by omega⟩
      rw [iterate, hnext]
    · have halign := le_alignLen hlen
      have hfits := h cursor hc
      have hfits' : Fits buf ⟨some (cursor + min (alignLen len) it.remaining),
          it.remaining - alignLen len⟩ := by
        rintro c' ⟨⟩
        dsimp only
        omega
      obtain ⟨attrs, hrun, hinside, hpair⟩ := ih (it.remaining - alignLen len) (by omega) hfits' rfl
      -- what follows starts after this attribute
      have hafter : ∀ attr ∈ attrs, cursor + len ≤ attr ∧ Inside e buf it attr := by
        intro attr hattr
        obtain ⟨start, len', hstart, hlen', h4', hge, hend, -⟩ := hinside attr hattr
        cases hstart
        dsimp only at hge hend
        exact ⟨by omega, cursor, len', hc, hlen', h4', by omega, by omega, hfits⟩
      refine ⟨cursor :: attrs, fun fuel hfuel => ?_, fun attr hattr => ?_, ?_⟩
      · obtain ⟨fuel, rfl⟩ : ∃ k, fuel = k + 1 := ⟨fuel - 1, by omega⟩
        have hrest := hrun fuel (by omega)
        rw [iterate, hnext]
        show (iterate e buf fuel _).map _ = _
        rw [hrest]
        rfl
      · rcases List.mem_cons.mp hattr with rfl | hattr
        · exact ⟨attr, len, hc, hlen, h4, Nat.le_refl _, by omega, hfits⟩
        · exact (hafter attr hattr).2
      · exact .cons (fun attr hattr => ⟨len, hlen, (hafter attr hattr).1⟩) hpair

end Next

/-! ## A row of attributes -/

/-- The bytes of an attribute: a header whose length is that of the attribute, and its payload. -/
def IsAttr (e : Endian) (a : Bytes) : Prop := 4 ≤ a.length ∧ nlaLen e a 0 = some a.length

/-- Attributes one after the other, each filled up to the next multiple of four, the last one as
far as it likes. -/
inductive Row (e : Endian) : List Bytes → Bytes → Prop where
  | nil : Row e [] []
  | last {a pad : Bytes} (ha : IsAttr e a) (hpad : a.length + pad.length ≤ alignLen a.length) :
      Row e [a] (a ++ pad)
  | cons {a pad rest : Bytes} {as : List Bytes} (ha : IsAttr e a)
      (hpad : a.length + pad.length = alignLen a.length) (hrest : Row e as rest) :
      Row e (a :: as) (a ++ pad ++ rest)

/-- The bytes of the attribute at an offset, with its whole length. -/
def attrBytes (e : Endian) (buf : Bytes) (attr : Nat) : Bytes :=
  (buf.drop attr).take ((nlaLen e buf attr).getD 0)

section Row

variable {e : Endian}

theorem nlaLen_append {front a back : Bytes} (ha : IsAttr e a) :
    nlaLen e (front ++ a ++ back) front.length = some a.length := by
  obtain ⟨h4, hlen⟩ := ha
  rw [← hlen, nlaLen, nlaLen, readField, readField, List.append_assoc, List.drop_left,
    List.drop_zero, List.take_append_of_le_length (by omega), if_pos (by simp; omega),
    if_pos (by omega)]

theorem attrBytes_append {front a back : Bytes} (ha : IsAttr e a) :
    attrBytes e (front ++ a ++ back) front.length = a := by
  rw [attrBytes, nlaLen_append ha, Option.getD_some, List.append_assoc, List.drop_left,
    List.take_left]

theorem iterNext_row {front a back : Bytes} (ha : IsAttr e a) {n : Nat} (hn : a.length ≤ n) :
    iterNext e (front ++ a ++ back) ⟨some front.length, n⟩ =
      some (⟨some (front.length + min (alignLen a.length) n), n - alignLen a.length⟩,
        some front.length) := by
  have h4 := ha.1
  unfold iterNext
  simp only [alignLen_header]
  rw [if_neg (by omega), nlaLen_append ha, Option.map_some, if_neg (by omega)]
  by_cases hstep : alignLen a.length ≥ n
  · rw [if_pos hstep, Nat.min_eq_right hstep, Nat.sub_eq_zero_of_le hstep]
  · rw [if_neg hstep, Nat.min_eq_left (by omega)]

/-- On a row of attributes the loop yields exactly these. -/
theorem iterate_row {as : List Bytes} {payload : Bytes} (h : Row e as payload) (front back : Bytes) :
    ∃ attrs, (∃ fuel, iterate e (front ++ payload ++ back) fuel
        ⟨some front.length, payload.length⟩ = some attrs) ∧
      attrs.map (attrBytes e (front ++ payload ++ back)) = as := by
  induction h generalizing front with
  | nil => exact ⟨[], ⟨1, by simp [iterate, iterNext, alignLen_header]⟩, rfl⟩
  | @last a pad ha hpad =>
    refine ⟨[front.length], ⟨2, ?_⟩, ?_⟩
    · have hbuf : front ++ (a ++ pad) ++ back = front ++ a ++ (pad ++ back) := by simp
      rw [hbuf, iterate, iterNext_row ha (by simp), List.length_append,
        Nat.sub_eq_zero_of_le hpad]
      simp [iterate, iterNext, alignLen_header]
    · have hbuf : front ++ (a ++ pad) ++ back = front ++ a ++ (pad ++ back) := by simp
      rw [hbuf, List.map_singleton, attrBytes_append ha]
  | @cons a pad rest as ha hpad hrest ih =>
    obtain ⟨attrs, ⟨fuel, hrun⟩, hmap⟩ := ih (front ++ a ++ pad)
    have hbuf : front ++ (a ++ pad ++ rest) ++ back = front ++ a ++ (pad ++ rest ++ back) := by simp
    have hbuf' : front ++ (a ++ pad ++ rest) ++ back = front ++ a ++ pad ++ rest ++ back := by simp
    refine ⟨front.length :: attrs, ⟨fuel + 1, ?_⟩, ?_⟩
    · have hlen : (a ++ pad ++ rest).length = alignLen a.length + rest.length := by
        rw [List.length_append, List.length_append, hpad]
      have hfront : (front ++ a ++ pad).length = front.length + alignLen a.length := by
        rw [List.length_append, List.length_append]
        omega
      have hnext := @iterNext_row e front a (pad ++ rest ++ back) ha
        (alignLen a.length + rest.length) (by omega)
      rw [Nat.min_eq_left (by omega), Nat.add_sub_cancel_left, ← hbuf, ← hfront] at hnext
      rw [iterate, hlen, hnext]
      show (iterate e _ fuel _).map _ = _
      rw [hbuf', hrun]
      rfl
    · rw [List.map_cons, hbuf, attrBytes_append ha, ← hbuf, hbuf', hmap]

end Row

theorem iterate_mono {buf : Bytes} {fuel fuel' : Nat} {it : NlattrIter} {attrs : List Nat}
    (h : iterate e buf fuel it = some attrs) (hle : fuel ≤ fuel') :
    iterate e buf fuel' it = some attrs := by
  induction fuel generalizing fuel' it attrs with
  | zero => cases h
  | succ fuel ih =>
    obtain ⟨fuel', rfl⟩ : ∃ k, fuel' = k + 1 := ⟨fuel' - 1, by omega⟩
    rw [iterate] at h ⊢
    cases hnext : iterNext e buf it with
    | none =>
      rw [hnext] at h
      cases h
    | some r =>
      obtain ⟨it', attr⟩ := r
      rw [hnext] at h
      cases attr with
      | none => exact h
      | some attr =>
        obtain ⟨rest, hrest, rfl⟩ := Option.map_eq_some_iff.mp h
        exact Option.map_eq_some_iff.mpr ⟨rest, ih hrest (by omega), rfl⟩

/-! ## Messages and nested attributes -/

/-- An iterator that was set up on a message, or an attribute, whose length does not exceed its
buffer. -/
inductive Honest (e : Endian) (buf : Bytes) : NlattrIter → Prop where
  | nlmsg {extraHeaderLen : Nat} {it : NlattrIter} {ok : Bool}
      (hinit : initNlmsg e buf extraHeaderLen = some (it, ok))
      (hlen : ∀ len, nlmsgLen e buf = some len → len ≤ buf.length) : Honest e buf it
  | nested {nest : Nat} {it : NlattrIter} {ok : Bool}
      (hinit : initNested e buf nest = some (it, ok))
      (hlen : ∀ len, nlaLen e buf nest = some len → nest + len ≤ buf.length) : Honest e buf it

section Honest

variable {e : Endian} {buf : Bytes} {it : NlattrIter}

theorem Honest.fits (h : Honest e buf it) : Fits buf it := by
  intro cursor hc
  cases h with
  | nlmsg hinit hlen =>
    obtain ⟨len, hl, hit⟩ := Option.map_eq_some_iff.mp hinit
    have hbuf := hlen len hl
    simp only at hit
    split at hit
    · cases hit
      cases hc
    · cases hit
      cases hc
      dsimp only
      omega
  | nested hinit hlen =>
    obtain ⟨len, hl, hit⟩ := Option.map_eq_some_iff.mp hinit
    have hbuf := hlen len hl
    simp only at hit
    split at hit
    · cases hit
      cases hc
    · cases hit
      cases hc
      dsimp only
      omega

theorem Inside.honest {attr : Nat} (h : Inside e buf it attr) {it' : NlattrIter} {ok : Bool}
    (hinit : initNested e buf attr = some (it', ok)) : Honest e buf it' := by
  obtain ⟨start, len, -, hlen, -, -, hend, hbuf⟩ := h
  refine .nested hinit fun len' hlen' => ?_
  rw [hlen] at hlen'
  cases hlen'
  omega

end Honest

/-- Iterating over a message or nested attribute with an honest length ends, whatever its bytes; the
attributes lie in the payload with their whole lengths and do not overlap; and those of a row of
attributes are all yielded, in order. -/
theorem nlattrIter_exact (e : Endian) (buf : Bytes) (it : NlattrIter) (h : Honest e buf it) :
    ∃ attrs, (∀ fuel, it.remaining < fuel → iterate e buf fuel it = some attrs) ∧
      (∀ attr ∈ attrs, Inside e buf it attr) ∧ attrs.Pairwise (Before e buf) ∧
      ∀ front payload back as, buf = front ++ payload ++ back →
        it = ⟨some front.length, payload.length⟩ → Row e as payload →
        attrs.map (attrBytes e buf) = as := by
  obtain ⟨attrs, hrun, hinside, hpair⟩ := iterate_spec (e := e) h.fits
  refine ⟨attrs, hrun, hinside, hpair, ?_⟩
  rintro front payload back as rfl rfl hrow
  obtain ⟨attrs', ⟨fuel, hrun'⟩, hmap⟩ := iterate_row hrow front back
  have hboth := iterate_mono hrun' (Nat.le_add_right fuel (payload.length + 1))
  rw [hrun _ (by dsimp only; omega)] at hboth
  rw [Option.some.inj hboth]
  exact hmap

def twoAttrs : Bytes :=
  [34, 0, 0, 0, 0, 0, 0, 0, 0, 0, 0, 0, 0, 0, 0, 0, 0, 0, 0, 0,
    5, 0, 1, 0, 9, 0, 0, 0, 6, 0, 2, 0, 7, 8]

theorem nlattrIter_exact_twoAttrs : ∃ attrs,
    (∀ fuel, 14 < fuel → iterate .little twoAttrs fuel ⟨some 20, 14⟩ = some attrs) ∧
      attrs.map (attrBytes .little twoAttrs) = [[5, 0, 1, 0, 9], [6, 0, 2, 0, 7, 8]] := by
  have hhonest : Honest .little twoAttrs ⟨some 20, 14⟩ := by
    refine @Honest.nlmsg _ _ 4 _ true (by decide +kernel) fun len hlen => ?_
    rw [show nlmsgLen .little twoAttrs = some 34 by decide +kernel] at hlen
    cases hlen
    decide
  obtain ⟨attrs, hrun, -, -, hrow⟩ := nlattrIter_exact .little twoAttrs ⟨some 20, 14⟩ hhonest
  refine ⟨attrs, hrun, hrow (twoAttrs.take 20) (twoAttrs.drop 20) [] _ (by decide) (by decide) ?_⟩
  have hlast : Row .little [[6, 0, 2, 0, 7, 8]] ([6, 0, 2, 0, 7, 8] ++ []) :=
    .last ⟨by decide, by decide +kernel⟩ (by decide)
  have hfirst : Row .little [[5, 0, 1, 0, 9], [6, 0, 2, 0, 7, 8]]
      ([5, 0, 1, 0, 9] ++ [0, 0, 0] ++ ([6, 0, 2, 0, 7, 8] ++ [])) :=
    .cons ⟨by decide, by decide +kernel⟩ (by decide) hlast
  exact hfirst

end MagiTrickle.Netlink
