import MagiTrickle.Frontend.RuleSorter

/-!
# Where patterns are in order

Types, addresses and domains are compared in turn. Below one domain, the rules
for a subdomain are a block, and a block is before or after another one by the
wildcard flags of the two rules that are compared. Without a tangle the blocks
stay whole, and a tangle is a circle (`sortRules_exact`).
-/

namespace MagiTrickle.RuleSorter

open Std Frontend Lib.Ordered

/-! ## Addresses -/

theorem isSpace_of_isDigit {c : Char} (h : isDigit c) : isSpace c = false := by
  have hc : 48 ≤ c.toNat ∧ c.toNat ≤ 57 := of_decide_eq_true h
  unfold isSpace
  simp only [List.mem_cons, List.not_mem_nil, or_false, decide_eq_false_iff_not]
  omega

theorem parseInt_isSome {s : List Char} (hne : s ≠ []) (hdigits : s.all isDigit) :
    (parseInt s).isSome := by
  obtain ⟨c, t, rfl⟩ := List.exists_cons_of_ne_nil hne
  have hc : isDigit c := List.all_eq_true.mp hdigits c List.mem_cons_self
  have hdrop : (c :: t).dropWhile isSpace = c :: t :=
    List.dropWhile_cons_of_neg (by rw [isSpace_of_isDigit hc]; decide)
  unfold parseInt
  rw [hdrop]
  split
  next neg ds hsign =>
    have hds : ds = c :: t := by
      split at hsign
      · next heq =>
        obtain rfl := (List.cons.inj heq).1
        exact absurd hc (by decide)
      · next heq =>
        obtain rfl := (List.cons.inj heq).1
        exact absurd hc (by decide)
      · exact (Prod.mk.inj hsign).2.symm
    rw [hds, List.takeWhile_cons_of_pos hc]
    dsimp only
    rw [if_neg (List.cons_ne_nil _ _)]
    rfl

theorem mask_isSome {value : List Char} (h : isValidSubnet value) :
    (parseCidr value).mask.isSome := by
  unfold parseCidr
  dsimp only
  split_ifs with hip hmask
  · rfl
  · refine parseInt_isSome hmask ?_
    have hsplit : value = value.takeWhile (· ≠ '/') ++ value.dropWhile (· ≠ '/') :=
      (List.takeWhile_append_dropWhile ..).symm
    have hnot : '/' ∉ value.takeWhile (· ≠ '/') := by
      intro hmem
      have := List.mem_takeWhile_imp hmem
      exact absurd this (by decide)
    unfold isValidSubnet subnetRe at h
    dsimp only at h
    split_ifs at h with hoctets
    · cases hrest : value.dropWhile (· ≠ '/') with
      | nil =>
        rw [hrest, List.append_nil] at hsplit
        rw [hsplit, List.splitOn_eq_singleton hnot] at hmask
        exact absurd rfl hmask
      | cons slash bits =>
        have hslash : slash = '/' := by
          have := List.head?_dropWhile_not (· ≠ '/') value
          rw [hrest] at this
          simpa using this
        rw [hrest] at h
        dsimp only at h
        split_ifs at h with hbits
        · obtain ⟨-, -, hdigits⟩ := of_decide_eq_true hbits
          have hnot' : '/' ∉ bits := fun hmem =>
            absurd (List.all_eq_true.mp hdigits _ hmem) (by decide)
          rw [hsplit, hrest, hslash, List.splitOn_append_cons_self_of_not_mem hnot,
            List.splitOn_eq_singleton hnot']
          exact hdigits
  · rfl

theorem compareCidr_eq {a b : Cidr} (ha : a.mask.isSome) (hb : b.mask.isSome) :
    compareCidr a b = (compare a.ip b.ip).then (compare (b.mask.getD 0) (a.mask.getD 0)) := by
  obtain ⟨maskA, ha⟩ := Option.isSome_iff_exists.mp ha
  obtain ⟨maskB, hb⟩ := Option.isSome_iff_exists.mp hb
  unfold compareCidr
  rw [ha, hb]
  by_cases hip : a.ip = b.ip
  · rw [if_neg (not_not.mpr hip), hip, ReflOrd.compare_self]
    rfl
  · rw [if_pos hip]
    have hne : compare a.ip b.ip ≠ .eq := fun h => hip (Nat.compare_eq_eq.mp h)
    revert hne
    cases compare a.ip b.ip <;> simp

/-! ## The comparison in turn -/

section

variable (localeCompare : List Char → List Char → Ordering)

/-- Domains are compared as one type. -/
def RuleType.rank (t : RuleType) : Nat := if t.isDomainLike then 20 else t.priority

def Rule.key (r : Rule) : DomainSortKey := buildDomainSortKey r.rule

def compareOuter (a b : Rule) : Ordering :=
  (compare (decide (a.key.sub ≠ [])) (decide (b.key.sub ≠ []))).then
    ((compare (!a.key.isWildcard) (!b.key.isWildcard)).then
      (compareSub localeCompare a.key.sub b.key.sub))

def compareInner (a b : Rule) : Ordering :=
  (compare a.key.isWildcard b.key.isWildcard).then
    ((localeCompare a.key.raw b.key.raw).then (localeCompare a.type.text b.type.text))

def compareDomains (a b : Rule) : Ordering :=
  (localeCompare a.key.base b.key.base).then ((localeCompare a.key.tld b.key.tld).then
    (if a.key.sub ≠ b.key.sub then compareOuter localeCompare a b
    else compareInner localeCompare a b))

theorem then_eq_ite (o₁ o₂ : Ordering) : (if o₁ ≠ .eq then o₁ else o₂) = o₁.then o₂ := by
  cases o₁ <;> rfl

theorem compareKeys_eq (a b : Rule) :
    compareKeys localeCompare a.key b.key (localeCompare a.type.text b.type.text) =
      compareDomains localeCompare a b := by
  unfold compareKeys compareDomains compareOuter compareInner
  generalize a.key = keyA, b.key = keyB
  dsimp only
  rw [then_eq_ite, then_eq_ite, then_eq_ite]
  refine congrArg _ (congrArg _ ?_)
  obtain ⟨-, -, subA, rawA, wildA⟩ := keyA
  obtain ⟨-, -, subB, rawB, wildB⟩ := keyB
  dsimp only
  by_cases hsub : subA = subB
  · rw [if_neg (not_not.mpr hsub), if_neg (not_not.mpr hsub)]
    cases wildA <;> cases wildB <;> rfl
  · rw [if_pos hsub, if_pos hsub]
    by_cases hA : subA = []
    · have hB : subB ≠ [] := fun hB => hsub (hA.trans hB.symm)
      rw [if_pos hA, decide_eq_false (not_not.mpr hA), decide_eq_true hB]
      rfl
    · rw [if_neg hA, decide_eq_true hA]
      by_cases hB : subB = []
      · rw [if_pos hB, decide_eq_false (not_not.mpr hB)]
        rfl
      · rw [if_neg hB, decide_eq_true hB]
        cases wildA <;> cases wildB <;> rfl

theorem compareOuter_of_ne_nil {a b : Rule} (ha : a.key.sub ≠ []) (hb : b.key.sub ≠ []) :
    compareOuter localeCompare a b = (compare (!a.key.isWildcard) (!b.key.isWildcard)).then
      (compareSub localeCompare a.key.sub b.key.sub) := by
  unfold compareOuter
  rw [decide_eq_true ha, decide_eq_true hb]
  rfl

theorem compareOuter_of_wild_eq {a b : Rule} (ha : a.key.sub ≠ []) (hb : b.key.sub ≠ [])
    (hwild : a.key.isWildcard = b.key.isWildcard) :
    compareOuter localeCompare a b = compareSub localeCompare a.key.sub b.key.sub := by
  rw [compareOuter_of_ne_nil localeCompare ha hb, hwild, ReflOrd.compare_self,
    Ordering.eq_then]

theorem compareOuter_of_wild {a b : Rule} (ha : a.key.sub ≠ []) (hb : b.key.sub ≠ [])
    (hwildA : a.key.isWildcard = true) (hwildB : b.key.isWildcard = false) :
    compareOuter localeCompare a b = .lt := by
  rw [compareOuter_of_ne_nil localeCompare ha hb, hwildA, hwildB]
  rfl

/-- For the rules of one subdomain the flag decides whether they are before another one. -/
theorem compareOuter_congr {a b : Rule} (c : Rule) (hsub : a.key.sub = b.key.sub)
    (hwild : a.key.isWildcard = b.key.isWildcard) :
    compareOuter localeCompare a c = compareOuter localeCompare b c := by
  unfold compareOuter
  rw [hsub, hwild]

def compareWithin (a b : Rule) : Ordering :=
  if a.type = .subnet then compareCidr (parseCidr a.rule) (parseCidr b.rule)
  else if a.type.isDomainLike then compareDomains localeCompare a b
  else localeCompare a.rule b.rule

theorem comparePatterns_eq (a b : Rule) : comparePatterns localeCompare a b =
    (compare a.type.rank b.type.rank).then (compareWithin localeCompare a b) := by
  unfold comparePatterns compareWithin
  rw [← compareKeys_eq]
  unfold Rule.key
  generalize compareCidr (parseCidr a.rule) (parseCidr b.rule) = cidrs
  generalize compareKeys localeCompare (buildDomainSortKey a.rule) (buildDomainSortKey b.rule)
    (localeCompare a.type.text b.type.text) = domains
  generalize localeCompare a.rule b.rule = texts
  cases a.type <;> cases b.type <;> rfl

theorem rank_eq_iff {t u : RuleType} :
    t.rank = u.rank ↔ t = u ∨ (t.isDomainLike ∧ u.isDomainLike) := by
  cases t <;> cases u <;> decide

theorem comparePatterns_domains {a b : Rule} (ha : a.type.isDomainLike) (hb : b.type.isDomainLike) :
    comparePatterns localeCompare a b = compareDomains localeCompare a b := by
  rw [comparePatterns_eq, rank_eq_iff.mpr (.inr ⟨ha, hb⟩), ReflOrd.compare_self, Ordering.eq_then]
  have hne : a.type ≠ .subnet := by
    intro heq
    rw [heq] at ha
    exact absurd ha (by decide)
  rw [compareWithin, if_neg hne, if_pos ha]

end

/-! ## Orders -/

section Orders

variable {localeCompare : List Char → List Char → Ordering}

theorem eq_of_compareSub [LawfulEqCmp localeCompare] {a b : List Char}
    (h : compareSub localeCompare a b = .eq) : a = b :=
  LawfulEqCmp.eq_of_compare (Ordering.then_eq_eq.mp h).2

theorem sub_eq_of_compareOuter [LawfulEqCmp localeCompare] {a b : Rule}
    (h : compareOuter localeCompare a b = .eq) : a.key.sub = b.key.sub :=
  eq_of_compareSub (Ordering.then_eq_eq.mp (Ordering.then_eq_eq.mp h).2).2

theorem comparePatterns_other [LawfulEqCmp localeCompare] {a b : Rule}
    (ha : a.type.isDomainLike) (hb : b.type.isDomainLike)
    (hbase : a.key.base = b.key.base) (htld : a.key.tld = b.key.tld)
    (hsub : a.key.sub ≠ b.key.sub) :
    comparePatterns localeCompare a b = compareOuter localeCompare a b := by
  rw [comparePatterns_domains localeCompare ha hb, compareDomains, hbase, htld,
    @ReflCmp.compare_self _ localeCompare, @ReflCmp.compare_self _ localeCompare, Ordering.eq_then,
    Ordering.eq_then, if_pos hsub]

theorem comparePatterns_same [LawfulEqCmp localeCompare] {a b : Rule}
    (ha : a.type.isDomainLike) (hb : b.type.isDomainLike)
    (hbase : a.key.base = b.key.base) (htld : a.key.tld = b.key.tld)
    (hsub : a.key.sub = b.key.sub) :
    comparePatterns localeCompare a b = compareInner localeCompare a b := by
  rw [comparePatterns_domains localeCompare ha hb, compareDomains, hbase, htld,
    @ReflCmp.compare_self _ localeCompare, @ReflCmp.compare_self _ localeCompare, Ordering.eq_then,
    Ordering.eq_then, if_neg (not_not.mpr hsub)]

theorem sortRules_pattern_asc (rules : List Rule) :
    sortRules localeCompare rules .pattern .asc = sort (comparePatterns localeCompare) rules := by
  unfold sortRules
  rw [if_neg (by decide)]

theorem compareCidr_self (a : Cidr) : compareCidr a a = .eq := by
  unfold compareCidr
  rw [if_neg (not_not.mpr rfl)]
  cases a.mask with
  | none => rfl
  | some mask => exact ReflOrd.compare_self

theorem comparePatterns_self [LawfulEqCmp localeCompare] (a : Rule) :
    comparePatterns localeCompare a a = .eq := by
  rw [comparePatterns_eq, ReflOrd.compare_self, Ordering.eq_then, compareWithin]
  split_ifs with hsubnet hdomain
  · exact compareCidr_self _
  · rw [← comparePatterns_domains localeCompare hdomain hdomain,
      comparePatterns_same hdomain hdomain rfl rfl rfl]
    simp only [compareInner, ReflOrd.compare_self, Ordering.eq_then,
      @ReflCmp.compare_self _ localeCompare]
  · exact ReflCmp.compare_self

variable [TransCmp localeCompare]

instance : TransCmp (compareSub localeCompare) :=
  inferInstanceAs (TransCmp (compareLex (compareOn fun s : List Char => (s.splitOn '.').length)
    localeCompare))

instance : TransCmp (compareOuter localeCompare) :=
  have := @transCmp_on _ _ (compareSub localeCompare) _ fun r : Rule => r.key.sub
  inferInstanceAs (TransCmp (compareLex (compareOn fun r : Rule => decide (r.key.sub ≠ []))
    (compareLex (compareOn fun r : Rule => !r.key.isWildcard)
      fun a b => compareSub localeCompare a.key.sub b.key.sub)))

instance : TransCmp (compareInner localeCompare) :=
  have := @transCmp_on _ _ localeCompare _ fun r : Rule => r.key.raw
  have := @transCmp_on _ _ localeCompare _ fun r : Rule => r.type.text
  inferInstanceAs (TransCmp (compareLex (compareOn fun r : Rule => r.key.isWildcard)
    (compareLex (fun a b => localeCompare a.key.raw b.key.raw)
      fun a b => localeCompare a.type.text b.type.text)))

variable [LawfulEqCmp localeCompare]

/-- Without a tangle a subdomain is as a whole before or after another one. -/
theorem compareOuter_block {a b c : Rule} (hsub : a.key.sub = b.key.sub)
    (hne : b.key.sub ≠ c.key.sub) (hab : (compareInner localeCompare a b).isLE)
    (hbc : compareOuter localeCompare b c = .lt)
    (htangle : a.key.sub ≠ [] → c.key.sub ≠ [] → a.key.isWildcard = false →
      b.key.isWildcard = true → ¬if c.key.isWildcard then
        compareSub localeCompare a.key.sub c.key.sub = .lt
      else compareSub localeCompare c.key.sub a.key.sub = .lt) :
    compareOuter localeCompare a c = .lt := by
  by_cases hwild : a.key.isWildcard = b.key.isWildcard
  · rw [compareOuter_congr localeCompare c hsub hwild]
    exact hbc
  have ha : a.key.isWildcard = false := by
    have hle := (Ordering.isLE_then_iff_and.mp hab).1
    revert hwild hle
    cases a.key.isWildcard <;> cases b.key.isWildcard <;> decide
  have hb : b.key.isWildcard = true := by
    rw [ha] at hwild
    exact Bool.eq_true_of_not_eq_false (Ne.symm hwild)
  by_cases hempty : a.key.sub = []
  · have hc : c.key.sub ≠ [] := fun hc => hne (hsub.symm.trans (hempty.trans hc.symm))
    unfold compareOuter
    rw [decide_eq_false (not_not.mpr hempty), decide_eq_true hc]
    rfl
  have hempty' : b.key.sub ≠ [] := hsub ▸ hempty
  by_cases hc : c.key.sub = []
  · unfold compareOuter at hbc
    rw [decide_eq_true hempty', decide_eq_false (not_not.mpr hc)] at hbc
    exact Ordering.noConfusion hbc
  have htangle := htangle hempty hc ha hb
  cases hwildC : c.key.isWildcard with
  | true =>
    rw [hwildC, if_pos rfl, hsub] at htangle
    rw [compareOuter_of_wild_eq localeCompare hempty' hc (hb.trans hwildC.symm)] at hbc
    exact absurd hbc htangle
  | false =>
    rw [hwildC, if_neg Bool.false_ne_true] at htangle
    rw [compareOuter_of_wild_eq localeCompare hempty hc (ha.trans hwildC.symm)]
    rcases hac : compareSub localeCompare a.key.sub c.key.sub with _ | _ | _
    · rfl
    · exact absurd (hsub.symm.trans (eq_of_compareSub hac)) hne
    · exact absurd (OrientedCmp.lt_of_gt hac) htangle

variable {rules : List Rule}

/-- Without a tangle, rules of one domain are in order. -/
theorem orderedOn_blocks {S : Set Rule}
    (h : ∀ p ∈ S, ∀ q ∈ S, ∀ r ∈ S, ¬Tangle localeCompare p q r)
    (htype : ∀ p ∈ S, p.type.isDomainLike)
    (hdomain : ∀ p ∈ S, ∀ q ∈ S, p.key.base = q.key.base ∧ p.key.tld = q.key.tld) :
    OrderedOn (fun a b => if a.key.sub ≠ b.key.sub then compareOuter localeCompare a b
      else compareInner localeCompare a b) S := by
  refine .blocks (fun a b => sub_eq_of_compareOuter) fun a ha b hb c hc hsub hne hab hbc => ?_
  refine compareOuter_block hsub hne hab hbc fun hsubA hsubC hwildA hwildB htangle => ?_
  exact h a ha b hb c hc ⟨⟨htype a ha, htype b hb, htype c hc⟩,
    ⟨(hdomain a ha b hb).1, (hdomain a ha b hb).2, hsub⟩, hdomain a ha c hc, hsubA, hsubC, hwildA,
    hwildB, htangle⟩

theorem orderedOn_domains {S : Set Rule}
    (h : ∀ p ∈ S, ∀ q ∈ S, ∀ r ∈ S, ¬Tangle localeCompare p q r)
    (htype : ∀ p ∈ S, p.type.isDomainLike) : OrderedOn (compareDomains localeCompare) S := by
  have hbase := @transCmp_on _ _ localeCompare _ fun r : Rule => r.key.base
  have htld := @transCmp_on _ _ localeCompare _ fun r : Rule => r.key.tld
  refine .lex fun x _ => .lex fun y _ => orderedOn_blocks
    (fun p hp q hq r hr => h p hp.1.1 q hq.1.1 r hr.1.1) (fun p hp => htype p hp.1.1) ?_
  intro p hp q hq
  have hbaseP : x.key.base = p.key.base := LawfulEqCmp.eq_of_compare hp.1.2
  have hbaseQ : x.key.base = q.key.base := LawfulEqCmp.eq_of_compare hq.1.2
  have htldP : y.key.tld = p.key.tld := LawfulEqCmp.eq_of_compare hp.2
  have htldQ : y.key.tld = q.key.tld := LawfulEqCmp.eq_of_compare hq.2
  exact ⟨hbaseP.symm.trans hbaseQ, htldP.symm.trans htldQ⟩

theorem orderedOn_subnets {S : Set Rule} (h : ∀ r ∈ S, (parseCidr r.rule).mask.isSome) :
    OrderedOn (fun a b => compareCidr (parseCidr a.rule) (parseCidr b.rule)) S := by
  have hmask : TransCmp fun a b : Rule =>
      compare ((parseCidr b.rule).mask.getD 0) ((parseCidr a.rule).mask.getD 0) :=
    @TransCmp.opposite _ (compareOn fun r : Rule => (parseCidr r.rule).mask.getD 0) _
  have htrans : TransCmp (compareLex (compareOn fun r : Rule => (parseCidr r.rule).ip) fun a b =>
      compare ((parseCidr b.rule).mask.getD 0) ((parseCidr a.rule).mask.getD 0)) := inferInstance
  exact (@orderedOn_of_transCmp _ _ S htrans).congr fun a ha b hb => compareCidr_eq (h a ha) (h b hb)

variable {isValidRegex : List Char → Bool} {rules : List Rule}

theorem orderedOn_within {S : Set Rule} {t : RuleType} (hvalid : ∀ r ∈ S, isValid isValidRegex r)
    (h : ∀ p ∈ S, ∀ q ∈ S, ∀ r ∈ S, ¬Tangle localeCompare p q r)
    (hrank : ∀ r ∈ S, t.rank = r.type.rank) : OrderedOn (compareWithin localeCompare) S := by
  by_cases hdomain : t.isDomainLike
  · have htype : ∀ r ∈ S, r.type.isDomainLike := by
      intro r hr
      rcases rank_eq_iff.mp (hrank r hr) with heq | hlike
      · exact heq ▸ hdomain
      · exact hlike.2
    refine (orderedOn_domains h htype).congr fun a ha b _ => ?_
    have hne : a.type ≠ .subnet := by
      intro heq
      have := htype a ha
      rw [heq] at this
      exact absurd this (by decide)
    rw [compareWithin, if_neg hne, if_pos (htype a ha)]
  have htype : ∀ r ∈ S, r.type = t := fun r hr =>
    ((rank_eq_iff.mp (hrank r hr)).resolve_right fun hlike => hdomain hlike.1).symm
  by_cases hsubnet : t = .subnet
  · refine OrderedOn.congr (orderedOn_subnets (S := S) fun r hr => ?_) fun a ha b _ => ?_
    · have := hvalid r hr
      rw [isValid, htype r hr, hsubnet] at this
      exact mask_isSome this
    · rw [compareWithin, if_pos ((htype a ha).trans hsubnet)]
  · have hrule := @transCmp_on _ _ localeCompare _ fun r : Rule => r.rule
    refine OrderedOn.congr (@orderedOn_of_transCmp _ _ S hrule) fun a ha b _ => ?_
    rw [compareWithin, htype a ha, if_neg hsubnet, if_neg hdomain]

/-- Without a tangle, rules are in order. -/
theorem orderedOn_patterns (hvalid : ∀ r ∈ rules, isValid isValidRegex r)
    (h : ¬Tangled localeCompare rules) :
    OrderedOn (comparePatterns localeCompare) {r | r ∈ rules} := by
  have hlex : OrderedOn (fun a b : Rule => (compareOn (fun r : Rule => r.type.rank) a b).then
      (compareWithin localeCompare a b)) {r | r ∈ rules} := by
    refine .lex fun x _ => orderedOn_within (t := x.type) (fun r hr => hvalid r hr.1)
      (fun p hp q hq r hr htangle => h ⟨p, hp.1, q, hq.1, r, hr.1, htangle⟩) fun r hr => ?_
    exact Nat.compare_eq_eq.mp hr.2
  exact hlex.congr fun a _ b _ => comparePatterns_eq localeCompare a b

/-! ## Tangles -/

/-- The rules of a tangle compare in a circle. -/
theorem Tangled.circle (h : Tangled localeCompare rules) :
    Circle (comparePatterns localeCompare) rules := by
  obtain ⟨p, hp, q, hq, r, hr, ⟨hlikeP, hlikeQ, hlikeR⟩, ⟨hbase, htld, hsub⟩, ⟨hbaseR, htldR⟩,
    hsubP, hsubR, hwildP, hwildQ, hlater⟩ := h
  change p.key.base = q.key.base at hbase
  change p.key.tld = q.key.tld at htld
  change p.key.sub = q.key.sub at hsub
  change p.key.base = r.key.base at hbaseR
  change p.key.tld = r.key.tld at htldR
  change p.key.isWildcard = false at hwildP
  change q.key.isWildcard = true at hwildQ
  change if r.key.isWildcard then compareSub localeCompare p.key.sub r.key.sub = .lt
    else compareSub localeCompare r.key.sub p.key.sub = .lt at hlater
  have hsubQ : q.key.sub ≠ [] := fun h => hsubP (hsub.trans h)
  have hne : p.key.sub ≠ r.key.sub := by
    intro heq
    rw [heq, @ReflCmp.compare_self _ (compareSub localeCompare), ite_self] at hlater
    exact Ordering.noConfusion hlater
  have hpq : comparePatterns localeCompare p q = .lt := by
    rw [comparePatterns_same hlikeP hlikeQ hbase htld hsub, compareInner, hwildP, hwildQ]
    rfl
  have hqr : comparePatterns localeCompare q r = compareOuter localeCompare q r :=
    comparePatterns_other hlikeQ hlikeR (hbase.symm.trans hbaseR) (htld.symm.trans htldR)
      fun h => hne (hsub.trans h)
  have hrp : comparePatterns localeCompare r p = compareOuter localeCompare r p :=
    comparePatterns_other hlikeR hlikeP hbaseR.symm htldR.symm hne.symm
  refine ⟨p, hp, q, hq, r, hr, hpq, ?_⟩
  rw [hqr, hrp]
  cases hwildR : r.key.isWildcard with
  | true =>
    rw [hwildR, if_pos rfl] at hlater
    rw [compareOuter_of_wild_eq localeCompare hsubQ hsubR (hwildQ.trans hwildR.symm), ← hsub]
    exact ⟨hlater, compareOuter_of_wild localeCompare hsubR hsubP hwildR hwildP⟩
  | false =>
    rw [hwildR, if_neg Bool.false_ne_true] at hlater
    rw [compareOuter_of_wild_eq localeCompare hsubR hsubP (hwildR.trans hwildP.symm)]
    exact ⟨compareOuter_of_wild localeCompare hsubQ hsubR hwildQ hwildR, hlater⟩

/-! ## Sorting -/

theorem consistent_iff (hvalid : ∀ r ∈ rules, isValid isValidRegex r) :
    Consistent localeCompare rules ↔ ¬Tangled localeCompare rules := by
  refine ⟨fun h htangled => ?_, fun h => ?_⟩
  · obtain ⟨a, ha, b, hb, c, hc, hab, hbc, hca⟩ := htangled.circle
    have hac := h.trans a ha b hb c hc hab hbc
    rw [h.antisymm a ha c hc, hca] at hac
    exact Ordering.noConfusion hac
  · have hordered := orderedOn_patterns hvalid h
    exact ⟨fun a ha b hb => hordered.swap a ha b hb,
      fun a ha b hb c hc => hordered.lt_trans ha hb hc⟩

/-- No arrangement of a tangle is in order, whatever the sort does. -/
theorem Tangled.not_pairwise {rules' : List Rule} (h : Tangled localeCompare rules)
    (hperm : rules'.Perm rules) :
    ¬rules'.Pairwise fun a b => comparePatterns localeCompare b a ≠ .lt := by
  refine h.circle.not_pairwise (fun a _ heq => ?_) hperm
  rw [comparePatterns_self] at heq
  exact Ordering.noConfusion heq

theorem sortsWell_iff (hvalid : ∀ r ∈ rules, isValid isValidRegex r) :
    SortsWell localeCompare rules ↔ ¬Tangled localeCompare rules := by
  refine ⟨fun h htangled => htangled.not_pairwise h.perm h.sorted, fun h => ?_⟩
  have hordered := orderedOn_patterns hvalid h
  refine ⟨?_, ?_, fun rules' hperm => ?_⟩
  · rw [sortRules_pattern_asc]
    exact sort_perm rules
  · rw [sortRules_pattern_asc]
    have hmem : ∀ r ∈ sort (comparePatterns localeCompare) rules, r ∈ rules :=
      fun r hr => (sort_perm rules).mem_iff.mp hr
    refine (pairwise_sort hordered).imp_of_mem fun {a b} ha hb hab hba => ?_
    rw [hordered.swap a (hmem a ha) b (hmem b hb), hba] at hab
    exact absurd hab (by decide)
  · rw [sortRules_pattern_asc, sortRules_pattern_asc]
    exact forall₂_sort hordered hperm

end Orders

/-- Valid patterns are compared consistently, and sorted well, just where there is no tangle. -/
theorem sortRules_exact (localeCompare : List Char → List Char → Ordering)
    [TransCmp localeCompare] [LawfulEqCmp localeCompare] (isValidRegex : List Char → Bool)
    (rules : List Rule) (hvalid : ∀ r ∈ rules, isValid isValidRegex r) :
    (Consistent localeCompare rules ∧ SortsWell localeCompare rules) ↔
      ¬Tangled localeCompare rules := by
  rw [consistent_iff hvalid, sortsWell_iff hvalid, and_self]

def threeDomains : List Rule :=
  [⟨"1", [], "*.example.com".toList, .wildcard⟩, ⟨"2", [], "example.org".toList, .domain⟩,
    ⟨"3", [], "example.com".toList, .domain⟩]

theorem sortRules_exact_domains :
    Consistent compare threeDomains ∧ SortsWell compare threeDomains := by
  refine (sortRules_exact compare (fun _ => true) _ (by decide +kernel)).mpr ?_
  rintro ⟨p, hp, q, hq, r, hr, -, -, -, hsub, -⟩
  have hnone : ∀ r ∈ threeDomains, (buildDomainSortKey r.rule).sub = [] := by decide +kernel
  exact hsub (hnone p hp)

def tangledRules : List Rule :=
  [⟨"1", [], "b.example.com".toList, .domain⟩, ⟨"2", [], "*.b.example.com".toList, .wildcard⟩,
    ⟨"3", [], "a.example.com".toList, .domain⟩]

theorem tangledRules_circle :
    (∀ r ∈ tangledRules, isValid (fun _ => true) r) ∧ ¬Consistent compare tangledRules ∧
      ¬SortsWell compare tangledRules := by
  have hcircle : Circle (comparePatterns compare) tangledRules :=
    ⟨_, .head _, _, .tail _ (.head _), _, .tail _ (.tail _ (.head _)), by decide +kernel, by decide +kernel,
      by decide +kernel⟩
  have hself : ∀ a ∈ tangledRules, comparePatterns compare a a ≠ .lt := by decide +kernel
  refine ⟨by decide +kernel, fun h => ?_, fun h => hcircle.not_pairwise hself h.perm h.sorted⟩
  obtain ⟨a, ha, b, hb, c, hc, hab, hbc, hca⟩ := hcircle
  have hac := h.trans a ha b hb c hc hab hbc
  rw [h.antisymm a ha c hc, hca] at hac
  exact Ordering.noConfusion hac

end MagiTrickle.RuleSorter
