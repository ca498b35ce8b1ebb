import MagiTrickle.Core.Libc

/-!
# The text of IPv6 addresses and prefix lengths

The grammar of an address without a dotted quad: eight groups of one to four
hexadecimal digits between colons, or at most seven with one `::` among them.
`inet_pton` reads exactly these texts (`inetPton6_isSome_iff`), and `strtol` reads
a whole text when it is blanks, at most one sign and digits (`strtol_whole_iff`).
-/

namespace MagiTrickle.Libc

/-- The byte `':'`. -/
abbrev colon : UInt8 := 58

structure IsGroup (g : Bytes) : Prop where
  pos : 1 ≤ g.length
  short : g.length ≤ 4
  hex : ∀ c ∈ g, (hexVal c).isSome

def IsGroups (t : Bytes) (n : Nat) : Prop :=
  ∃ gs : List Bytes, gs.length = n ∧ (∀ g ∈ gs, IsGroup g) ∧ t = [colon].intercalate gs

def IsIpv6Text (s : Bytes) : Prop :=
  IsGroups s 8 ∨ ∃ l r n k, IsGroups l n ∧ IsGroups r k ∧ n + k ≤ 7 ∧ s = l ++ colon :: colon :: r

/-! ## Groups -/

theorem hexVal_colon : hexVal colon = none := rfl

theorem IsGroup.colon_not_mem {g : Bytes} (h : IsGroup g) : colon ∉ g := by
  intro hin
  have hsome := h.hex colon hin
  rw [hexVal_colon] at hsome
  cases hsome

theorem IsGroup.ne_nil {g : Bytes} (h : IsGroup g) : g ≠ [] := by
  rintro rfl
  exact absurd h.pos (by decide)

theorem mapM_isSome_iff {α β : Type} {f : α → Option β} {xs : List α} :
    (xs.mapM f).isSome ↔ ∀ x ∈ xs, (f x).isSome := by
  induction xs with
  | nil => exact iff_of_true rfl fun x hx => absurd hx List.not_mem_nil
  | cons x xs ih =>
    rw [List.mapM_cons, List.forall_mem_cons, ← ih]
    cases f x with
    | none => exact iff_of_false nofun fun h => nomatch h.1
    | some v => cases xs.mapM f <;> simp

theorem hextet_spec (g : Bytes) :
    (IsGroup g → ∃ o, hextet g = some o ∧ o.length = 2) ∧ (¬ IsGroup g → hextet g = none) := by
  unfold hextet
  by_cases hlen : g = [] ∨ 4 < g.length
  · rw [if_pos hlen]
    refine ⟨fun h => ?_, fun _ => rfl⟩
    rcases hlen with rfl | hlong
    · exact absurd rfl h.ne_nil
    · exact absurd h.short (by omega)
  · rw [if_neg hlen]
    obtain ⟨hne, hshort⟩ := not_or.mp hlen
    refine ⟨fun h => ?_, fun h => ?_⟩
    · obtain ⟨ds, hds⟩ := Option.isSome_iff_exists.mp (mapM_isSome_iff.mpr h.hex)
      rw [hds]
      exact ⟨_, rfl, rfl⟩
    · cases hds : g.mapM hexVal with
      | none => rfl
      | some ds =>
        refine absurd ⟨List.length_pos_iff.mpr hne, by omega, ?_⟩ h
        exact mapM_isSome_iff.mp (hds ▸ rfl)

theorem inetPton4_eq_none {p : Bytes} (h : dot ∉ p) : inetPton4 p = none := by
  have hsplit : p.splitOn dot = [p] := by
    have hone := @List.splitOn_intercalate UInt8 [p] _ _ dot
      (fun l hl => List.mem_singleton.mp hl ▸ h) (List.cons_ne_nil _ _)
    rwa [List.intercalate_singleton] at hone
  unfold inetPton4
  rw [hsplit]
  rfl

theorem hextets_cons {v4 : Bool} {p q : Bytes} {ps : List Bytes} :
    hextets v4 (p :: q :: ps) = (hextet p).bind fun o => (hextets v4 (q :: ps)).map (o ++ ·) := by
  rw [hextets]
  · cases hextet p with
    | none => rfl
    | some o =>
      cases hextets v4 (q :: ps) <;> rfl
  · intro h
    cases h

theorem hextets_spec (v4 : Bool) {ps : List Bytes} (hdot : ∀ p ∈ ps, dot ∉ p) :
    ((∀ p ∈ ps, IsGroup p) → ∃ os, hextets v4 ps = some os ∧ os.length = 2 * ps.length) ∧
      (¬ (∀ p ∈ ps, IsGroup p) → hextets v4 ps = none) := by
  induction ps with
  | nil =>
    refine ⟨fun _ => ⟨[], rfl, rfl⟩, fun h => ?_⟩
    exact absurd (fun p hp => absurd hp List.not_mem_nil) h
  | cons p ps ih =>
    have ih := ih fun q hq => hdot q (List.mem_cons_of_mem _ hq)
    cases ps with
    | nil =>
      rw [List.forall_mem_singleton, hextets]
      refine ⟨fun h => ?_, fun h => ?_⟩
      · obtain ⟨o, ho, hlen⟩ := (hextet_spec p).1 h
        rw [ho]
        exact ⟨o, rfl, hlen⟩
      · rw [(hextet_spec p).2 h]
        dsimp only
        rw [inetPton4_eq_none (hdot p List.mem_cons_self)]
        exact ite_self _
    | cons q ps =>
      rw [List.forall_mem_cons, hextets_cons]
      refine ⟨fun ⟨hp, hps⟩ => ?_, fun h => ?_⟩
      · obtain ⟨o, ho, hlen⟩ := (hextet_spec p).1 hp
        obtain ⟨os, hos, hlens⟩ := ih.1 hps
        refine ⟨o ++ os, by rw [ho, hos]; rfl, ?_⟩
        rw [List.length_append, hlen, hlens, List.length_cons, List.length_cons, List.length_cons]
        omega
      · by_cases hp : IsGroup p
        · rw [ih.2 fun hps => h ⟨hp, hps⟩]
          cases hextet p <;> rfl
        · rw [(hextet_spec p).2 hp]
          rfl

/-! ## Sides of a gap -/

/-- The groups on one side of the gap, as `inet_pton` reads them. -/
def readSide (v4 : Bool) (t : Bytes) : Option Bytes :=
  if t = [] then some [] else hextets v4 (t.splitOn colon)

theorem mem_intercalate {c x : UInt8} {ps : List Bytes} {p : Bytes} (hp : p ∈ ps) (hc : c ∈ p) :
    c ∈ [x].intercalate ps := by
  induction ps with
  | nil => exact absurd hp List.not_mem_nil
  | cons q ps ih =>
    cases ps with
    | nil =>
      rw [List.intercalate_singleton, ← List.mem_singleton.mp hp]
      exact hc
    | cons q' ps =>
      rw [List.intercalate_cons_cons]
      rcases List.mem_cons.mp hp with rfl | hp
      · exact List.mem_append_left _ (List.mem_append_left _ hc)
      · exact List.mem_append_right _ (ih hp)

theorem mem_of_mem_intercalate {c x : UInt8} {ps : List Bytes} (h : c ∈ [x].intercalate ps) :
    c = x ∨ ∃ p ∈ ps, c ∈ p := by
  induction ps with
  | nil => exact absurd h List.not_mem_nil
  | cons p ps ih =>
    cases ps with
    | nil =>
      rw [List.intercalate_singleton] at h
      exact .inr ⟨p, List.mem_singleton_self p, h⟩
    | cons q ps =>
      rw [List.intercalate_cons_cons] at h
      rcases List.mem_append.mp h with h | h
      · rcases List.mem_append.mp h with h | h
        · exact .inr ⟨p, List.mem_cons_self, h⟩
        · exact .inl (List.mem_singleton.mp h)
      · rcases ih h with h | ⟨r, hr, hc⟩
        · exact .inl h
        · exact .inr ⟨r, List.mem_cons_of_mem _ hr, hc⟩

theorem IsGroup.dot_not_mem {g : Bytes} (h : IsGroup g) : dot ∉ g := by
  intro hin
  have hsome := h.hex dot hin
  cases hsome

theorem readSide_of_groups (v4 : Bool) {t : Bytes} {n : Nat} (h : IsGroups t n) :
    ∃ os, readSide v4 t = some os ∧ os.length = 2 * n := by
  obtain ⟨gs, rfl, hgs, rfl⟩ := h
  unfold readSide
  cases gs with
  | nil => exact ⟨[], rfl, rfl⟩
  | cons g gs =>
    have hne : [colon].intercalate (g :: gs) ≠ [] := by
      obtain ⟨c, hc⟩ := List.exists_mem_of_ne_nil g (hgs g List.mem_cons_self).ne_nil
      exact List.ne_nil_of_mem (mem_intercalate List.mem_cons_self hc)
    rw [if_neg hne, List.splitOn_intercalate colon (fun l hl => (hgs l hl).colon_not_mem)
      (List.cons_ne_nil g gs)]
    exact (hextets_spec v4 fun p hp => (hgs p hp).dot_not_mem).1 hgs

theorem groups_of_readSide {v4 : Bool} {t os : Bytes} (hdot : dot ∉ t)
    (h : readSide v4 t = some os) : ∃ n, IsGroups t n ∧ os.length = 2 * n := by
  unfold readSide at h
  split at h
  · next hnil =>
    cases h
    exact ⟨0, ⟨[], rfl, fun g hg => absurd hg List.not_mem_nil, hnil⟩, rfl⟩
  · have hpieces : ∀ p ∈ t.splitOn colon, dot ∉ p := by
      intro p hp hin
      refine hdot ?_
      rw [← @List.intercalate_splitOn _ t _ _ colon]
      exact mem_intercalate hp hin
    have hspec := hextets_spec v4 hpieces
    by_cases hgs : ∀ p ∈ t.splitOn colon, IsGroup p
    · obtain ⟨os', hos, hlen⟩ := hspec.1 hgs
      rw [hos] at h
      cases h
      exact ⟨_, ⟨_, rfl, hgs, (List.intercalate_splitOn colon).symm⟩, hlen⟩
    · rw [hspec.2 hgs] at h
      cases h

/-! ## The gap -/

theorem splitGap_cons_of_ne {c : UInt8} (h : c ≠ colon) (t : Bytes) :
    splitGap (c :: t) = (splitGap t).map fun lr => (c :: lr.1, lr.2) := by
  rw [splitGap]
  exact fun _ hc _ => h hc

theorem splitGap_colon {c : UInt8} (h : c ≠ colon) (t : Bytes) :
    splitGap (colon :: c :: t) = (splitGap (c :: t)).map fun lr => (colon :: lr.1, lr.2) := by
  rw [splitGap]
  exact fun _ _ heq => h (List.cons.inj heq).1

theorem splitGap_gap (r : Bytes) : splitGap (colon :: colon :: r) = some ([], r) := rfl

theorem splitGap_spec {s l r : Bytes} (h : splitGap s = some (l, r)) :
    s = l ++ colon :: colon :: r := by
  induction s generalizing l with
  | nil => cases h
  | cons c s ih =>
    have hrest : ((splitGap s).map fun lr => (c :: lr.1, lr.2)) = some (l, r) →
        c :: s = l ++ colon :: colon :: r := by
      intro h
      obtain ⟨lr, hlr, heq⟩ := Option.map_eq_some_iff.mp h
      cases heq
      rw [ih hlr]
      rfl
    by_cases hc : c = colon
    · subst hc
      cases s with
      | nil => cases h
      | cons d s =>
        by_cases hd : d = colon
        · subst hd
          cases h
          rfl
        · rw [splitGap_colon hd] at h
          exact hrest h
    · rw [splitGap_cons_of_ne hc] at h
      exact hrest h

theorem splitGap_append {g : Bytes} (hg : colon ∉ g) (t : Bytes) :
    splitGap (g ++ t) = (splitGap t).map fun lr => (g ++ lr.1, lr.2) := by
  induction g with
  | nil => exact Option.map_id'.symm
  | cons c g ih =>
    obtain ⟨hc, hg⟩ := not_or.mp fun h => hg (List.mem_cons.mpr h)
    rw [List.cons_append, splitGap_cons_of_ne (Ne.symm hc), ih hg, Option.map_map]
    rfl

theorem splitGap_groups {gs : List Bytes} (hgs : ∀ g ∈ gs, IsGroup g) (t : Bytes) :
    splitGap ([colon].intercalate gs ++ t) =
      (splitGap t).map fun lr => ([colon].intercalate gs ++ lr.1, lr.2) := by
  induction gs with
  | nil => exact Option.map_id'.symm
  | cons g gs ih =>
    have hg := hgs g List.mem_cons_self
    cases gs with
    | nil =>
      rw [List.intercalate_singleton]
      exact splitGap_append hg.colon_not_mem t
    | cons g' gs =>
      have ih := ih fun x hx => hgs x (List.mem_cons_of_mem _ hx)
      have hg' := hgs g' (List.mem_cons_of_mem _ List.mem_cons_self)
      obtain ⟨c, cs, rfl⟩ := List.exists_cons_of_ne_nil hg'.ne_nil
      have hc : c ≠ colon := fun h => hg'.colon_not_mem (h ▸ List.mem_cons_self)
      rw [List.intercalate_cons_cons, List.append_assoc, List.append_assoc,
        splitGap_append hg.colon_not_mem]
      rw [List.intercalate_cons_cons_left] at ih ⊢
      rw [List.cons_append] at ih ⊢
      rw [List.cons_append, List.nil_append, splitGap_colon hc, ih]
      simp only [Option.map_map, Function.comp_def, List.append_assoc, List.cons_append,
        List.nil_append]

/-! ## Addresses -/

theorem inetPton6_eq (s : Bytes) : inetPton6 s =
    match splitGap s with
    | none => (readSide true s).bind fun os => if os.length = 16 then some os else none
    | some (l, r) => (readSide false l).bind fun ls => (readSide true r).bind fun rs =>
        if ls.length + rs.length ≤ 14 then
          some (ls ++ List.replicate (16 - ls.length - rs.length) 0 ++ rs)
        else none := by
  unfold inetPton6 readSide
  rfl

theorem dot_not_mem_append {a b : Bytes} (h : dot ∉ a ++ colon :: colon :: b) :
    dot ∉ a ∧ dot ∉ b :=
  ⟨fun ha => h (List.mem_append_left _ ha), fun hb =>
    h (List.mem_append_right _ (List.mem_cons_of_mem _ (List.mem_cons_of_mem _ hb)))⟩

/-- `inet_pton` reads the texts of addresses. -/
theorem inetPton6_isSome_iff {s : Bytes} (hdot : dot ∉ s) :
    (inetPton6 s).isSome ↔ IsIpv6Text s := by
  rw [inetPton6_eq]
  refine ⟨fun h => ?_, fun h => ?_⟩
  · obtain ⟨os, h⟩ := Option.isSome_iff_exists.mp h
    split at h
    · obtain ⟨os, hos, h⟩ := Option.bind_eq_some_iff.mp h
      obtain ⟨n, hn, hlen⟩ := groups_of_readSide hdot hos
      split at h
      · have height : n = 8 := by omega
        exact .inl (height ▸ hn)
      · cases h
    · next l r hgap =>
      obtain ⟨ls, hls, h⟩ := Option.bind_eq_some_iff.mp h
      obtain ⟨rs, hrs, h⟩ := Option.bind_eq_some_iff.mp h
      have hs := splitGap_spec hgap
      obtain ⟨hdl, hdr⟩ := dot_not_mem_append (hs ▸ hdot)
      obtain ⟨n, hn, hlenl⟩ := groups_of_readSide hdl hls
      obtain ⟨k, hk, hlenr⟩ := groups_of_readSide hdr hrs
      split at h
      · exact .inr ⟨l, r, n, k, hn, hk, by omega, hs⟩
      · cases h
  · rcases h with h | ⟨l, r, n, k, hl, hr, hle, rfl⟩
    · obtain ⟨os, hos, hlen⟩ := readSide_of_groups true h
      obtain ⟨gs, -, hgs, rfl⟩ := h
      have hgap : splitGap ([colon].intercalate gs) = none := by
        have hnone := splitGap_groups hgs []
        rwa [List.append_nil] at hnone
      rw [hgap]
      dsimp only
      rw [hos, Option.bind_some, if_pos hlen]
      rfl
    · obtain ⟨ls, hls, hlenl⟩ := readSide_of_groups false hl
      obtain ⟨rs, hrs, hlenr⟩ := readSide_of_groups true hr
      obtain ⟨gs, -, hgs, rfl⟩ := hl
      have hgap : splitGap ([colon].intercalate gs ++ colon :: colon :: r) =
          some ([colon].intercalate gs, r) := by
        rw [splitGap_groups hgs _, splitGap_gap, Option.map_some, List.append_nil]
      rw [hgap]
      dsimp only
      rw [hls, Option.bind_some, hrs, Option.bind_some, if_pos (by omega)]
      rfl

/-! ## Whole numbers -/

/-- What `strtol` reads to the end: blanks, at most one sign, and digits. -/
structure IsDecimal (t ws sg ds : Bytes) : Prop where
  text : t = ws ++ (sg ++ ds)
  blank : ∀ c ∈ ws, isSpace c
  sign : sg = [] ∨ sg = [45] ∨ sg = [43]
  pos : ds ≠ []
  digit : ∀ c ∈ ds, isDigit c

def IsDecimalText (t : Bytes) : Prop := ∃ ws sg ds, IsDecimal t ws sg ds

def signedDecimal (sg ds : Bytes) : Int := if sg = [45] then -(decimal ds : Int) else decimal ds

theorem IsDecimal.strtol_eq {t ws sg ds : Bytes} (h : IsDecimal t ws sg ds) :
    strtol t = some (signedDecimal sg ds, []) := by
  have htake : ds.takeWhile isDigit = ds := List.takeWhile_eq_self_iff.mpr h.digit
  have hdrop : ds.dropWhile isDigit = [] := List.dropWhile_eq_nil_iff.mpr h.digit
  have hblank : t.dropWhile isSpace = (sg ++ ds).dropWhile isSpace := by
    rw [h.text, List.dropWhile_append_of_pos h.blank]
  have hread : ∀ neg : Bool, (if ds.takeWhile isDigit = [] then none
      else some (if neg then -(decimal (ds.takeWhile isDigit) : Int)
        else decimal (ds.takeWhile isDigit), ds.dropWhile isDigit)) =
      some (if neg then -(decimal ds : Int) else decimal ds, ([] : Bytes)) := by
    intro neg
    rw [htake, hdrop, if_neg h.pos]
  rw [strtol, hblank]
  rcases h.sign with rfl | rfl | rfl
  · have hwhole := strtol_of_digits h.pos h.digit
    rwa [strtol] at hwhole
  · exact hread true
  · exact hread false

theorem isDecimal_of_strtol {t : Bytes} {v : Int} (h : strtol t = some (v, [])) :
    IsDecimalText t := by
  have hblank : ∀ c ∈ t.takeWhile isSpace, isSpace c := fun c => List.mem_takeWhile_imp
  have htext : t.takeWhile isSpace ++ t.dropWhile isSpace = t := List.takeWhile_append_dropWhile
  rw [strtol] at h
  split at h
  next neg u heq =>
  dsimp only at h
  split at h
  · cases h
  · next hne =>
    obtain ⟨-, hdrop⟩ := Prod.mk.inj (Option.some.inj h)
    have hdigit : ∀ c ∈ u, isDigit c := List.dropWhile_eq_nil_iff.mp hdrop
    have hpos : u ≠ [] := by
      rintro rfl
      exact hne rfl
    have hall : ∀ sg : Bytes, (sg = [] ∨ sg = [45] ∨ sg = [43]) → t.dropWhile isSpace = sg ++ u →
        IsDecimalText t := by
      intro sg hsg hrest
      exact ⟨_, sg, u, by rw [← hrest, htext], hblank, hsg, hpos, hdigit⟩
    split at heq
    · next hrest =>
      cases heq
      exact hall [45] (.inr (.inl rfl)) hrest
    · next hrest =>
      cases heq
      exact hall [43] (.inr (.inr rfl)) hrest
    · cases heq
      exact hall [] (.inl rfl) rfl

/-- `strtol` reads a whole text exactly when it is a decimal number. -/
theorem strtol_whole_iff {t : Bytes} : (∃ v, strtol t = some (v, [])) ↔ IsDecimalText t := by
  refine ⟨fun ⟨v, h⟩ => isDecimal_of_strtol h, ?_⟩
  rintro ⟨ws, sg, ds, h⟩
  exact ⟨_, h.strtol_eq⟩

end MagiTrickle.Libc
