import MagiTrickle.DnsCache.Views

/-!
# The cleanup of expired entries

`mt_cache_cleanup` drops the expired addresses and aliases of every node, and the
nodes that hold nothing after that (`DomainNode.cleaned`). A lookup passes over
expired entries on its own, so a cleanup changes nothing for lookups at its time
or later.
-/

namespace MagiTrickle.DnsCache

open Lib

/-! ## What a lookup depends on -/

def liveAlias (c : Cache) (now : Int) (d : Bytes) : Option Bytes :=
  match (domFind c d).bind DomainNode.aliasTo with
  | none => none
  | some (target, deadline) => if deadline ≤ now then none else some target

/-- A round of the lookup, by what is unexpired. -/
theorem getAddressesFrom_live (c : Cache) (now : Int) (room : Nat) (seen : List Bytes)
    (current : Bytes) :
    getAddressesFrom c now room seen current =
      if liveAddrs c now current ≠ [] then liveAddrs c now current
      else match liveAlias c now current, room with
        | some t, room' + 1 => if t ∈ seen then [] else getAddressesFrom c now room' (t :: seen) t
        | _, _ => [] := by
  rw [getAddressesFrom.eq_def]
  unfold liveAddrs liveAlias
  dsimp only
  cases hf : domFind c current with
  | none => simp
  | some n =>
    dsimp only [Option.bind_some]
    by_cases hv : n.addrs.filter (fun a => decide (a.deadline > now)) = []
    · rw [if_neg (not_not.mpr hv), if_neg (not_not.mpr hv)]
      cases n.aliasTo with
      | none => rfl
      | some p =>
        dsimp only
        by_cases hdead : p.2 ≤ now
        · rw [if_pos hdead, if_pos hdead]
        · rw [if_neg hdead, if_neg hdead]
          cases room <;> rfl
    · rw [if_pos hv, if_pos hv]

/-- A lookup sees the unexpired addresses and aliases, and nothing else. -/
theorem getAddressesFrom_congr {c c' : Cache} {now : Int}
    (haddrs : ∀ d, liveAddrs c' now d = liveAddrs c now d)
    (halias : ∀ d, liveAlias c' now d = liveAlias c now d) (room : Nat) (seen : List Bytes)
    (current : Bytes) :
    getAddressesFrom c' now room seen current = getAddressesFrom c now room seen current := by
  induction room generalizing seen current with
  | zero =>
    rw [getAddressesFrom_live, getAddressesFrom_live c, haddrs, halias]
    cases liveAlias c now current <;> rfl
  | succ room ih =>
    rw [getAddressesFrom_live, getAddressesFrom_live c, haddrs, halias]
    cases liveAlias c now current with
    | none => rfl
    | some t =>
      dsimp only
      rw [ih]

/-! ## What a cleanup leaves of a node -/

/-- The alias that is left of a node. -/
def DomainNode.keptAlias (n : DomainNode) (now : Int) : Option (Bytes × Int) :=
  n.aliasTo.filter fun p => now < p.2

/-- What is left of a node, if anything is. -/
def DomainNode.cleaned (n : DomainNode) (now : Int) : Option DomainNode :=
  let addrs := n.addrs.filter fun a => a.deadline > now
  if addrs = [] ∧ n.keptAlias now = none then none
  else some { n with addrs, aliasTo := n.keptAlias now }

namespace Table

variable {c : Table}

theorem expireAlias_keptAlias (c : Table) (now : Int) (n : DomainNode) :
    (c.expireAlias now n).2 = n.keptAlias now := by
  unfold expireAlias DomainNode.keptAlias
  cases n.aliasTo with
  | none => rfl
  | some p =>
    dsimp only
    by_cases hdead : p.2 ≤ now
    · rw [if_pos hdead, Option.filter_some, if_neg (by simpa using hdead)]
    · rw [if_neg hdead, Option.filter_some, if_pos (by simpa using hdead)]

/-- A round of the cleanup leaves of its node what is unexpired. -/
theorem Inv.domFind_cleanupNode (h : c.Inv) {n : DomainNode} (hn : c.domFind n.domain = some n)
    (now : Int) : (c.cleanupNode now n).domFind n.domain = n.cleaned now := by
  have hkept := expireAlias_keptAlias c now n
  unfold Table.cleanupNode DomainNode.cleaned
  cases he : c.expireAlias now n with
  | mk c₁ aliasTo =>
  rw [he] at hkept
  obtain ⟨hshape, hdom, -, -⟩ := h.expireAlias hn he
  have hfind : c₁.domFind n.domain = some n := by
    unfold domFind
    rw [hdom]
    exact hn
  dsimp only at hkept ⊢
  subst hkept
  split
  · rw [hshape.domFind_domRemove, if_pos rfl]
  · rw [domFind_domStore (by rw [hfind]; rfl), if_pos rfl]

theorem Inv.domFind_cleanupNodes (h : c.Inv) {ns : List DomainNode} (now : Int)
    (hnodup : (ns.map DomainNode.domain).Nodup) (hns : ∀ n ∈ ns, c.domFind n.domain = some n)
    (d : Bytes) :
    (ns.foldl (Table.cleanupNode · now) c).domFind d =
      if d ∈ ns.map DomainNode.domain then (c.domFind d).bind (DomainNode.cleaned · now)
      else c.domFind d := by
  induction ns generalizing c with
  | nil => simp
  | cons n ns ih =>
    rw [List.map_cons, List.nodup_cons] at hnodup
    have hn := hns n (List.mem_cons_self ..)
    obtain ⟨hinv, hother⟩ := h.cleanupNode hn now
    have hns' : ∀ n' ∈ ns, (c.cleanupNode now n).domFind n'.domain = some n' := by
      intro n' hn'
      rw [hother _ fun hd => hnodup.1 (hd ▸ List.mem_map_of_mem hn')]
      exact hns n' (List.mem_cons_of_mem _ hn')
    rw [List.foldl_cons, ih hinv hnodup.2 hns', List.map_cons]
    by_cases hd : d = n.domain
    · subst hd
      rw [if_neg hnodup.1, if_pos (List.mem_cons_self ..), h.domFind_cleanupNode hn, hn]
      rfl
    · rw [hother d hd]
      simp only [List.mem_cons, hd, false_or]

/-- A cleanup leaves of every node what is unexpired. -/
theorem Inv.domFind_cleanup (h : c.Inv) (now : Int) (d : Bytes) :
    (c.cleanup now).domFind d = (c.domFind d).bind (DomainNode.cleaned · now) := by
  have hfind : ∀ n ∈ Chained.nodes c.dom, c.domFind n.domain = some n := fun n hn =>
    h.dom.mem_nodes_iff.mp hn
  rw [Table.cleanup, h.domFind_cleanupNodes now h.dom.nodup_nodes hfind]
  split
  · rfl
  · next hnot =>
    cases hd : c.domFind d with
    | none => rfl
    | some n =>
      have hname := domain_of_domFind hd
      subst hname
      exact absurd (List.mem_map_of_mem (h.dom.mem_nodes_iff.mpr hd)) hnot

/-! ## Lookups after a cleanup -/

theorem Inv.addrsOf_cleanup (h : c.Inv) (now : Int) (d : Bytes) :
    (c.cleanup now).addrsOf d = (c.addrsOf d).filter fun a => a.deadline > now := by
  unfold addrsOf
  rw [h.domFind_cleanup]
  cases c.domFind d with
  | none => rfl
  | some n =>
    dsimp only [Option.bind_some, Option.map_some, Option.getD_some]
    unfold DomainNode.cleaned
    by_cases hnone : n.addrs.filter (fun a => decide (a.deadline > now)) = [] ∧
        n.keptAlias now = none
    · rw [if_pos hnone, hnone.1]
      rfl
    · rw [if_neg hnone]
      rfl

theorem Inv.aliasTo_cleanup (h : c.Inv) (now : Int) (d : Bytes) :
    (c.cleanup now).aliasTo d = (c.aliasTo d).filter fun p => now < p.2 := by
  unfold aliasTo
  rw [h.domFind_cleanup]
  cases c.domFind d with
  | none => rfl
  | some n =>
    show (n.cleaned now).bind DomainNode.aliasTo = n.keptAlias now
    unfold DomainNode.cleaned
    by_cases hnone : n.addrs.filter (fun a => decide (a.deadline > now)) = [] ∧
        n.keptAlias now = none
    · rw [if_pos hnone, hnone.2]
      rfl
    · rw [if_neg hnone]
      rfl

theorem Inv.liveAddrs_cleanup (h : c.Inv) {now t : Int} (hle : now ≤ t) (d : Bytes) :
    liveAddrs (c.cleanup now).cache t d = liveAddrs c.cache t d := by
  rw [(h.cleanup now).liveAddrs_cache, h.liveAddrs_cache, h.addrsOf_cleanup, List.filter_filter]
  refine List.filter_congr fun a _ => ?_
  by_cases ha : a.deadline > t
  · have hnow : a.deadline > now := by omega
    simp [ha, hnow]
  · simp [ha]

theorem Inv.liveAlias_cleanup (h : c.Inv) {now t : Int} (hle : now ≤ t) (d : Bytes) :
    liveAlias (c.cleanup now).cache t d = liveAlias c.cache t d := by
  have hkept := h.aliasTo_cleanup now d
  unfold aliasTo at hkept
  unfold liveAlias
  rw [(h.cleanup now).domFind_cache, h.domFind_cache, hkept]
  cases (c.domFind d).bind DomainNode.aliasTo with
  | none => rfl
  | some p =>
    rw [Option.filter_some]
    by_cases hnow : now < p.2
    · rw [if_pos (by simpa using hnow)]
    · rw [if_neg (by simpa using hnow)]
      have ht : p.2 ≤ t := by omega
      dsimp only
      rw [if_pos ht]

/-! ## A second cleanup -/

theorem cleaned_fresh {n n' : DomainNode} {now : Int} (h : n.cleaned now = some n') :
    n'.cleaned now = some n' := by
  unfold DomainNode.cleaned at h
  dsimp only at h
  split at h
  · cases h
  · next hsome =>
    cases h
    have hkept : DomainNode.keptAlias ⟨n.domain, n.addrs.filter fun a => a.deadline > now,
        n.keptAlias now⟩ now = n.keptAlias now := by
      unfold DomainNode.keptAlias
      simp
    unfold DomainNode.cleaned
    dsimp only
    rw [hkept, List.filter_filter]
    simp only [Bool.and_self]
    rw [if_neg hsome]

theorem cleanupNode_fresh {n : DomainNode} {now : Int} (hn : c.domFind n.domain = some n)
    (hfresh : n.cleaned now = some n) : c.cleanupNode now n = c := by
  unfold DomainNode.cleaned at hfresh
  dsimp only at hfresh
  split at hfresh
  · cases hfresh
  · next hsome =>
    have hnode := Option.some.inj hfresh
    have halias : n.keptAlias now = n.aliasTo := congrArg DomainNode.aliasTo hnode
    have hexpire : c.expireAlias now n = (c, n.keptAlias now) := by
      rw [halias]
      unfold expireAlias
      unfold DomainNode.keptAlias at halias
      cases ha : n.aliasTo with
      | none => rfl
      | some p =>
        rw [ha, Option.filter_eq_some_iff] at halias
        have hlive : ¬ p.2 ≤ now := by simpa using halias.2
        dsimp only
        rw [if_neg hlive]
    unfold Table.cleanupNode
    rw [hexpire]
    dsimp only
    rw [if_neg hsome, hnode]
    unfold domStore
    rw [Chained.store_self hn]

/-- A cleanup that finds nothing expired changes nothing. -/
theorem Inv.cleanup_fresh (h : c.Inv) {now : Int}
    (hfresh : ∀ n ∈ Chained.nodes c.dom, n.cleaned now = some n) : c.cleanup now = c := by
  have hfind : ∀ n ∈ Chained.nodes c.dom, c.domFind n.domain = some n := fun n hn =>
    h.dom.mem_nodes_iff.mp hn
  unfold Table.cleanup
  generalize Chained.nodes c.dom = ns at hfresh hfind
  induction ns with
  | nil => rfl
  | cons n ns ih =>
    rw [List.foldl_cons, cleanupNode_fresh (hfind n (List.mem_cons_self ..))
      (hfresh n (List.mem_cons_self ..))]
    exact ih (fun n' hn' => hfresh n' (List.mem_cons_of_mem _ hn'))
      fun n' hn' => hfind n' (List.mem_cons_of_mem _ hn')

theorem Inv.cleanup_cleanup (h : c.Inv) (now : Int) :
    (c.cleanup now).cleanup now = c.cleanup now := by
  refine (h.cleanup now).cleanup_fresh fun n hn => ?_
  have hfind : (c.cleanup now).domFind n.domain = some n :=
    (h.cleanup now).dom.mem_nodes_iff.mp hn
  rw [h.domFind_cleanup] at hfind
  obtain ⟨n₀, -, hclean⟩ := Option.bind_eq_some_iff.mp hfind
  exact cleaned_fresh hclean

/-! ## The reverse index -/

/-- An edge that is listed less often after the cleanup is that of an expired alias. -/
theorem Inv.expired_of_unlisted (h : c.Inv) {now : Int} {target d : Bytes}
    (hless : ((c.cleanup now).pointing target).count d < (c.pointing target).count d) :
    ∃ deadline, c.aliasTo d = some (target, deadline) ∧ deadline ≤ now := by
  rw [(h.cleanup now).mirror, h.mirror, aliasOf_eq, aliasOf_eq, h.aliasTo_cleanup] at hless
  by_cases hhad : (c.aliasTo d).map Prod.fst = some target
  · obtain ⟨⟨t, deadline⟩, ha, rfl⟩ := Option.map_eq_some_iff.mp hhad
    refine ⟨deadline, ha, ?_⟩
    by_contra hlive
    have hkept : (c.aliasTo d).filter (fun p => decide (now < p.2)) = c.aliasTo d := by
      rw [ha, Option.filter_some, if_pos (by simpa using hlive)]
    rw [hkept] at hless
    exact lt_irrefl _ hless
  · rw [if_neg hhad] at hless
    exact absurd hless (Nat.not_lt_zero _)

/-- **A cleanup is invisible to lookups** at its time or later, a second one at the same time does
nothing, and the names it takes out of the reverse table are those of expired aliases. -/
theorem cleanup_invisible (maxDomains : Nat) (ops : List Op) (now t : Int) (hle : now ≤ t) :
    let c := (create maxDomains).run ops
    (∀ d, cacheGetAddresses (c.cleanup now).cache d t = cacheGetAddresses c.cache d t) ∧
      (c.cleanup now).cleanup now = c.cleanup now ∧
      ∀ target d, ((c.cleanup now).pointing target).count d < (c.pointing target).count d →
        ∃ n deadline, c.domFind d = some n ∧ n.aliasTo = some (target, deadline) ∧
          deadline ≤ now := by
  intro c
  have h : c.Inv := (inv_create maxDomains).run ops
  refine ⟨fun d => ?_, h.cleanup_cleanup now, fun target d hless => ?_⟩
  · exact getAddressesFrom_congr (h.liveAddrs_cleanup hle) (h.liveAlias_cleanup hle) _ _ _
  · obtain ⟨deadline, ha, hdead⟩ := h.expired_of_unlisted hless
    obtain ⟨n, hn, ha⟩ := Option.bind_eq_some_iff.mp ha
    exact ⟨n, deadline, hn, ha, hdead⟩

/-- A chain from `a.com` over `b.com`, whose address is expired, to `c.com`. -/
def chainOps : List Op :=
  [.addAlias (str "a.com") (str "b.com") 100 0, .addAlias (str "b.com") (str "c.com") 100 0,
    .addAddress (str "b.com") [1, 1, 1, 1] 10 0, .addAddress (str "c.com") [2, 2, 2, 2] 10 0,
    .addAddress (str "c.com") [3, 3, 3, 3] 100 0]

theorem cleanup_invisible_chain :
    cacheGetAddresses (((create 0).run chainOps).cleanup 50).cache (str "a.com") 60 =
      [⟨[3, 3, 3, 3], 100⟩] := by
  rw [(cleanup_invisible 0 chainOps 50 60 (by decide)).1]
  decide +kernel

end Table

end MagiTrickle.DnsCache
