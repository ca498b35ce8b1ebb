import MagiTrickle.Dns.Names
import MagiTrickle.Dns.Pipeline
import MagiTrickle.Lib.Codes

/-!
# Names as keys of the cache

The text of a name is a code: every octet has an escape that is read back in one
way, and no escape starts with the dot that ends a label. So the cache keeps two
names apart wherever their labels differ (`presentation_faithful`).
-/

namespace MagiTrickle.Pipeline

open MagiTrickle.Dns.Wire MagiTrickle.Lib.Codes

/-- A name: labels of 1 to 63 octets, at most 255 octets with their lengths and the root. -/
structure Name where
  labels : List Bytes
  nonempty : ∀ l ∈ labels, 1 ≤ l.length
  short : ∀ l ∈ labels, l.length ≤ 63
  fits : (wireName labels).length ≤ 255

def Name.wire (name : Name) : Bytes := wireName name.labels

theorem exists_labels {w : Bytes} (h : Labels w) :
    ∃ labels : List Bytes, (∀ l ∈ labels, 1 ≤ l.length ∧ l.length ≤ 63) ∧ wireName labels = w := by
  induction h with
  | root => exact ⟨[], fun l hl => absurd hl List.not_mem_nil, rfl⟩
  | @label len8 l w hkind hne hlen hw ih =>
    obtain ⟨labels, hsizes, rfl⟩ := ih
    refine ⟨l :: labels, fun l' hl' => ?_, wireName_cons labels hlen⟩
    rcases List.mem_cons.mp hl' with rfl | hl'
    · have hpos : len8.toNat ≠ 0 := fun h0 => hne (UInt8.toNat_inj.mp h0)
      rcases octet_kind len8 with ⟨-, hC0, -⟩ | ⟨-, -, -, hC0⟩ | ⟨hlt, -⟩
      · rw [hkind] at hC0
        exact absurd hC0 (by decide)
      · exact absurd hkind hC0
      · omega
    · exact hsizes l' hl'

theorem exists_name_of_isName {w : Bytes} (h : IsName w) : ∃ name : Name, name.wire = w := by
  obtain ⟨labels, hsizes, rfl⟩ := exists_labels h.labels
  exact ⟨⟨labels, fun l hl => (hsizes l hl).1, fun l hl => (hsizes l hl).2, h.short⟩, rfl⟩

/-! ## Escapes -/

theorem forall_octet {P : UInt8 → Prop} (h : ∀ n < 256, P (UInt8.ofNat n)) (b : UInt8) : P b := by
  have hb := h b.toNat b.toNat_lt
  rwa [UInt8.ofNat_toNat] at hb

def unescape : Bytes → Option (UInt8 × Bytes)
  | [] => none
  | b :: rest =>
    if b = 92 then
      match rest with
      | [] => none
      | d :: rest =>
        if 48 ≤ d ∧ d ≤ 57 then
          match rest with
          | e :: f :: rest => some ((d - 48) * 100 + (e - 48) * 10 + (f - 48), rest)
          | _ => none
        else some (d, rest)
    else some (b, rest)

theorem special_not_digit (b : UInt8) : b ∈ specials → ¬(48 ≤ b ∧ b ≤ 57) :=
  @forall_octet (fun b => b ∈ specials → ¬(48 ≤ b ∧ b ≤ 57)) (by decide +kernel) b

theorem decimal_digits (b : UInt8) :
    (48 ≤ 48 + b / 100 ∧ 48 + b / 100 ≤ 57) ∧
      (48 + b / 100 - 48) * 100 + (48 + b / 10 % 10 - 48) * 10 + (48 + b % 10 - 48) = b :=
  @forall_octet (fun b => (48 ≤ 48 + b / 100 ∧ 48 + b / 100 ≤ 57) ∧
    (48 + b / 100 - 48) * 100 + (48 + b / 10 % 10 - 48) * 10 + (48 + b % 10 - 48) = b)
    (by decide +kernel) b

theorem unescape_escape (b : UInt8) (rest : Bytes) :
    unescape (escape b ++ rest) = some (b, rest) := by
  unfold escape
  split
  · next hb =>
    have hd := special_not_digit b hb
    simp only [unescape, List.cons_append, List.nil_append, if_pos, if_neg hd]
  · next hb =>
    split
    · obtain ⟨hd, hval⟩ := decimal_digits b
      simp only [unescape, List.cons_append, List.nil_append, if_pos, if_pos hd, hval]
    · have hne : b ≠ 92 := fun h => hb (h ▸ by decide +kernel)
      simp only [unescape, List.cons_append, List.nil_append, if_neg hne]

theorem escape_readable : Readable escape := readable_of_decode unescape_escape

/-- An escape does not start with the dot that ends a label, has no NUL, and is one to four
octets. -/
theorem escape_octets (b : UInt8) :
    (escape b).head? ≠ some dot ∧ 0 ∉ escape b ∧ 1 ≤ (escape b).length ∧ (escape b).length ≤ 4 :=
  @forall_octet (fun b => (escape b).head? ≠ some dot ∧ 0 ∉ escape b ∧
    1 ≤ (escape b).length ∧ (escape b).length ≤ 4) (by decide +kernel) b

/-! ## The text of the labels -/

def labelText (l : Bytes) : Bytes := l.flatMap escape ++ [dot]

theorem labelText_readable : Readable labelText := by
  refine escape_readable.marked fun b x y h => ?_
  obtain ⟨hdot, -, hlen, -⟩ := escape_octets b
  cases hesc : escape b with
  | nil =>
    rw [hesc] at hlen
    exact absurd hlen (by decide)
  | cons c cs =>
    rw [hesc, List.cons_append] at h
    rw [hesc, (List.cons.inj h).1] at hdot
    exact hdot rfl

theorem labelText_ne_nil (l : Bytes) : labelText l ≠ [] :=
  List.append_ne_nil_of_right_ne_nil _ nofun

theorem zero_not_mem_labelText (l : Bytes) : 0 ∉ labelText l := by
  intro h
  rcases List.mem_append.mp h with h | h
  · obtain ⟨b, -, hb⟩ := List.mem_flatMap.mp h
    exact (escape_octets b).2.1 hb
  · exact absurd h (by decide)

theorem length_flatMap_escape_le (l : Bytes) : (l.flatMap escape).length ≤ 4 * l.length := by
  induction l with
  | nil => exact Nat.le_refl _
  | cons b l ih =>
    have hb := (escape_octets b).2.2.2
    rw [List.flatMap_cons, List.length_append, List.length_cons]
    omega

theorem length_labelText_le (l : Bytes) : (labelText l).length ≤ 4 * l.length + 1 := by
  have hl := length_flatMap_escape_le l
  rw [labelText, List.length_append, List.length_singleton]
  omega

theorem length_texts_le (labels : List Bytes) :
    (labels.flatMap labelText).length + 4 ≤ 4 * (wireName labels).length := by
  induction labels with
  | nil => exact Nat.le_refl _
  | cons l labels ih =>
    have hl := length_labelText_le l
    unfold wireName at *
    rw [List.flatMap_cons, List.flatMap_cons, List.length_append, List.append_assoc,
      List.length_append, List.length_cons]
    omega

/-! ## The loop -/

theorem toNat_ofNat_label {l : Bytes} (h : l.length ≤ 63) :
    (UInt8.ofNat l.length).toNat = l.length := by
  rw [UInt8.toNat_ofNat']
  omega

/-- The loop writes the text of every label, if the buffer holds it. -/
theorem nameToStringLoop_labels {bufLen fuel : Nat} {labels : List Bytes} {out : Bytes}
    (hone : ∀ l ∈ labels, 1 ≤ l.length) (hshort : ∀ l ∈ labels, l.length ≤ 63)
    (hfuel : labels.length < fuel)
    (hroom : (out ++ labels.flatMap labelText).length < bufLen) :
    nameToStringLoop bufLen fuel (wireName labels) out = .ok (out ++ labels.flatMap labelText) := by
  induction labels generalizing fuel out with
  | nil =>
    obtain ⟨fuel, rfl⟩ := Nat.exists_eq_add_of_lt hfuel
    show nameToStringLoop bufLen (_ + 1) [0] out = _
    rw [nameToStringLoop, if_pos rfl, List.flatMap_nil, List.append_nil]
  | cons l labels ih =>
    obtain ⟨fuel, rfl⟩ : ∃ f, fuel = f + 1 := ⟨fuel - 1, by omega⟩
    have hl := hone l List.mem_cons_self
    have hlen := toNat_ofNat_label (hshort l List.mem_cons_self)
    have hne : UInt8.ofNat l.length ≠ 0 := by
      intro h
      rw [h] at hlen
      exact absurd hlen (by rw [UInt8.toNat_zero]; omega)
    rw [wireName_cons labels hlen.symm, nameToStringLoop, if_neg hne, hlen, List.length_append,
      if_neg (by omega), List.take_left, List.drop_left]
    rw [List.flatMap_cons, ← List.append_assoc] at hroom ⊢
    have hroom' := hroom
    rw [List.length_append] at hroom'
    have hstep : out ++ l.flatMap escape ++ [dot] = out ++ labelText l := List.append_assoc ..
    dsimp only
    rw [hstep, if_neg (by omega)]
    refine ih (fun l' hl' => hone l' (List.mem_cons_of_mem _ hl'))
      (fun l' hl' => hshort l' (List.mem_cons_of_mem _ hl')) ?_ hroom
    rw [List.length_cons] at hfuel
    omega

/-! ## The key -/

def Name.text (name : Name) : Bytes :=
  if name.labels = [] then [dot] else name.labels.flatMap labelText

theorem length_labels_lt (labels : List Bytes) : labels.length < (wireName labels).length := by
  induction labels with
  | nil => exact Nat.one_pos
  | cons l labels ih =>
    unfold wireName at *
    rw [List.flatMap_cons, List.append_assoc, List.length_append, List.length_cons,
      List.length_cons]
    omega

theorem nameToString_wire (name : Name) : nameToString name.wire nameBuf = .ok name.text := by
  have hroom : (name.labels.flatMap labelText).length < nameBuf := by
    have hle := length_texts_le name.labels
    have hfits := name.fits
    unfold nameBuf
    omega
  rw [nameToString, Name.wire, nameToStringLoop_labels name.nonempty name.short
    (length_labels_lt name.labels) hroom, List.nil_append, Name.text]
  cases hlabels : name.labels with
  | nil => rfl
  | cons l labels =>
    have hne : (l :: labels).flatMap labelText ≠ [] := by
      rw [List.flatMap_cons]
      exact List.append_ne_nil_of_left_ne_nil (labelText_ne_nil l) _
    rw [if_neg (List.cons_ne_nil l labels)]
    exact if_neg hne

theorem zero_not_mem_text (name : Name) : 0 ∉ name.text := by
  unfold Name.text
  split
  · decide
  · intro h
    obtain ⟨l, -, hl⟩ := List.mem_flatMap.mp h
    exact zero_not_mem_labelText l hl

/-- A text ends in a dot, which `trim_fqdn` drops. -/
theorem trimFqdn_text (name : Name) : trimFqdn name.text ++ [dot] = name.text := by
  have hlast : ∃ front, name.text = front ++ [dot] := by
    unfold Name.text
    split
    · exact ⟨[], rfl⟩
    · next hne =>
      obtain ⟨front, l, hl⟩ := (List.eq_nil_or_concat' name.labels).resolve_left hne
      refine ⟨front.flatMap labelText ++ l.flatMap escape, ?_⟩
      rw [hl, List.flatMap_append, List.flatMap_singleton, labelText, List.append_assoc]
  obtain ⟨front, hfront⟩ := hlast
  rw [hfront, trimFqdn, if_pos (by rw [List.getLast?_append_cons]; rfl), List.dropLast_concat]

theorem text_injective {name name' : Name} (h : name.text = name'.text) :
    name.labels = name'.labels := by
  have hinj := labelText_readable.flatMap_injective labelText_ne_nil
  -- the text of the root is that of one empty label, which no name has
  have hroot : ∀ name : Name, name.text = [dot] → name.labels = [] := by
    intro name htext
    unfold Name.text at htext
    split at htext
    · assumption
    · have hlabels : name.labels = [[]] := hinj htext
      have hone := name.nonempty [] (hlabels ▸ List.mem_cons_self)
      exact absurd hone (by decide)
  by_cases hnil : name.labels = []
  · have htext : name.text = [dot] := if_pos hnil
    rw [hnil, hroot name' (h ▸ htext)]
  · by_cases hnil' : name'.labels = []
    · have htext : name'.text = [dot] := if_pos hnil'
      exact absurd (hroot name (h.trans htext)) hnil
    · unfold Name.text at h
      rw [if_neg hnil, if_neg hnil'] at h
      exact hinj h

/-- The text of every name fits the buffer and has no NUL, so the key is all of it but the last dot;
names with the same key have the same labels; and what `rd_name` returns are names. -/
theorem presentation_faithful :
    (∀ name : Name, ∃ text, nameToString name.wire nameBuf = .ok text ∧ 0 ∉ text ∧
      presentation name.wire = some (trimFqdn text)) ∧
    (∀ name name' : Name, presentation name.wire = presentation name'.wire →
      name.labels = name'.labels) ∧
    ∀ (buf : Bytes) (p : Nat) (w : Bytes) (q : Nat), rdName buf p = some (w, q) →
      ∃ name : Name, name.wire = w := by
  have hkey : ∀ name : Name, presentation name.wire = some (trimFqdn name.text) := by
    intro name
    rw [presentation, nameToString_wire]
  refine ⟨fun name => ⟨name.text, nameToString_wire name, zero_not_mem_text name, hkey name⟩, ?_,
    fun buf p w q h => exists_name_of_isName (isName_of_rdName h)⟩
  intro name name' h
  rw [hkey, hkey] at h
  have htrim := Option.some.inj h
  refine text_injective ?_
  rw [← trimFqdn_text name, htrim, trimFqdn_text name']

end MagiTrickle.Pipeline
