import MagiTrickle.DnsCache.Table
import Mathlib.Data.List.Perm.Basic

/-!
# The two tables of the cache mirror each other

`Coherent` is what holds of the cache between calls: the counter counts the
nodes, a node holds something, and the reverse table lists every alias exactly
once. The primitives keep the shape of the tables (`Shape`); what each does to
the node of a name and to the names pointing to an alias is an equation, and
from these the calls are shown to keep the mirror.
-/

namespace MagiTrickle.DnsCache

open Lib

/-- What a node holds between calls. -/
structure DomainNode.Held (n : DomainNode) : Prop where
  something : n.addrs ≠ [] ∨ n.aliasTo.isSome
  distinct : (n.addrs.map CacheAddr.addr).Nodup
  noSelf : ∀ p, n.aliasTo = some p → p.1 ≠ n.domain

namespace Table

/-- The names that point to `target`, by the reverse table. -/
def pointing (c : Table) (target : Bytes) : List Bytes :=
  ((c.revFind target).map RevNode.domains).getD []

/-- The alias of a name, by its own node. -/
def aliasOf (c : Table) (domain : Bytes) : Option Bytes :=
  ((c.domFind domain).bind DomainNode.aliasTo).map Prod.fst

/-- The representation invariant. -/
structure Coherent (c : Table) : Prop where
  distinctNames : ((Chained.nodes c.dom).map DomainNode.domain).Nodup
  held : ∀ n ∈ Chained.nodes c.dom, n.Held
  counted : c.nDomains = (Chained.nodes c.dom).length
  bounded : c.nDomains ≤ c.maxDomains
  distinctTargets : ((Chained.nodes c.rev).map RevNode.target).Nodup
  listed : ∀ r ∈ Chained.nodes c.rev, r.domains ≠ []
  mirror : ∀ target domain, (c.pointing target).count domain =
    if c.aliasOf domain = some target then 1 else 0

/-- The shape of the tables: what every primitive keeps. -/
structure Shape (c : Table) : Prop where
  dom : Chained.WF domHash DomainNode.domain c.dom
  rev : Chained.WF revHash RevNode.target c.rev
  counted : c.nDomains = (Chained.nodes c.dom).length
  bounded : c.nDomains ≤ c.maxDomains
  listed : ∀ target r, c.revFind target = some r → r.domains ≠ []

/-- The invariant by what is found under each name. -/
structure Inv (c : Table) : Prop extends Shape c where
  held : ∀ domain n, c.domFind domain = some n → n.Held
  mirror : ∀ target domain, (c.pointing target).count domain =
    if c.aliasOf domain = some target then 1 else 0

variable {c : Table}

theorem Inv.coherent (h : c.Inv) : c.Coherent where
  distinctNames := h.dom.nodup_nodes
  held := fun n hn => h.held _ n (h.dom.mem_nodes_iff.mp hn)
  counted := h.counted
  bounded := h.bounded
  distinctTargets := h.rev.nodup_nodes
  listed := fun r hr => h.listed _ r (h.rev.mem_nodes_iff.mp hr)
  mirror := h.mirror

theorem inv_create (maxDomains : Nat) : (create maxDomains).Inv where
  dom := .empty
  rev := .empty
  counted := by simp [create, Chained.nodes]
  bounded := Nat.zero_le _
  listed := fun _ _ h => by cases h
  held := fun _ _ h => by cases h
  mirror := fun _ _ => rfl

/-! ## The primitives -/

theorem domain_of_domFind {d : Bytes} {n : DomainNode} (h : c.domFind d = some n) : n.domain = d :=
  Chained.find_key h

theorem Shape.domFindOrCreate (h : c.Shape) {d : Bytes} {c' : Table} {n : DomainNode}
    (hc : c.domFindOrCreate d = some (c', n)) :
    c'.Shape ∧ c'.rev = c.rev ∧ n = (c.domFind d).getD ⟨d, [], none⟩ ∧
      ∀ d', c'.domFind d' = if d' = d then some n else c.domFind d' := by
  unfold Table.domFindOrCreate at hc
  split at hc
  · next n' hf =>
    cases hc
    refine ⟨h, rfl, by rw [hf]; rfl, fun d' => ?_⟩
    split
    · next hd => rw [hd, hf]
    · rfl
  · next hf =>
    split at hc
    · cases hc
    · next hroom =>
      cases hc
      refine ⟨⟨h.dom.push hf, h.rev, ?_, ?_, h.listed⟩, rfl, by rw [hf]; rfl, fun d' =>
        Chained.find_push⟩
      · show c.nDomains + 1 = _
        rw [Chained.length_nodes_push, h.counted]
      · show c.nDomains + 1 ≤ c.maxDomains
        omega

theorem Shape.domStore (h : c.Shape) (n : DomainNode) : (c.domStore n).Shape where
  dom := h.dom.store
  rev := h.rev
  counted := by
    unfold Table.domStore
    rw [Chained.length_nodes_store, h.counted]
  bounded := h.bounded
  listed := h.listed

theorem domFind_domStore {n : DomainNode} (h : (c.domFind n.domain).isSome) (d : Bytes) :
    (c.domStore n).domFind d = if d = n.domain then some n else c.domFind d :=
  Chained.find_store h

theorem Shape.domRemove (h : c.Shape) {d : Bytes} (hd : (c.domFind d).isSome) :
    (c.domRemove d).Shape := by
  have hlen := Chained.length_nodes_erase hd
  have hcount := h.counted
  have hbound := h.bounded
  refine ⟨h.dom.erase, h.rev, ?_, ?_, h.listed⟩
  · unfold Table.domRemove
    dsimp only
    omega
  · show c.nDomains - 1 ≤ c.maxDomains
    omega

theorem Shape.domFind_domRemove (h : c.Shape) (d d' : Bytes) :
    (c.domRemove d).domFind d' = if d' = d then none else c.domFind d' :=
  Chained.find_erase h.dom

theorem revAdd_frame (c : Table) (t d : Bytes) : (c.revAdd t d).dom = c.dom ∧
    (c.revAdd t d).nDomains = c.nDomains ∧ (c.revAdd t d).maxDomains = c.maxDomains := by
  unfold revAdd
  split <;> exact ⟨rfl, rfl, rfl⟩

theorem revRemove_frame (c : Table) (t d : Bytes) : (c.revRemove t d).dom = c.dom ∧
    (c.revRemove t d).nDomains = c.nDomains ∧ (c.revRemove t d).maxDomains = c.maxDomains := by
  unfold revRemove
  split
  · exact ⟨rfl, rfl, rfl⟩
  · dsimp only
    split <;> exact ⟨rfl, rfl, rfl⟩

theorem revFind_revAdd (c : Table) (t d a : Bytes) : (c.revAdd t d).revFind a =
    if a = t then some ⟨t, c.pointing t ++ [d]⟩ else c.revFind a := by
  unfold revAdd pointing
  split
  · next hf =>
    rw [hf]
    exact Chained.find_push
  · next r hf =>
    obtain rfl : r.target = t := Chained.find_key hf
    rw [hf]
    refine Chained.find_store ?_
    show (c.revFind r.target).isSome
    rw [hf]
    rfl

theorem Shape.revFind_revRemove (h : c.Shape) (t d a : Bytes) : (c.revRemove t d).revFind a =
    if a = t then
      if swapRemove d (c.pointing t) = [] then none else some ⟨t, swapRemove d (c.pointing t)⟩
    else c.revFind a := by
  unfold Table.revRemove pointing
  cases hf : c.revFind t with
  | none =>
    by_cases ha : a = t
    · simp [ha, hf, swapRemove]
    · simp [ha]
  | some r =>
    obtain rfl : r.target = t := Chained.find_key hf
    dsimp only [Option.map_some, Option.getD_some]
    split
    · exact Chained.find_erase h.rev
    · refine Chained.find_store ?_
      show (c.revFind r.target).isSome
      rw [hf]
      rfl

theorem Shape.revAdd (h : c.Shape) (t d : Bytes) : (c.revAdd t d).Shape := by
  obtain ⟨hdom, hn, hmax⟩ := revAdd_frame c t d
  refine ⟨hdom ▸ h.dom, ?_, by rw [hn, hdom, h.counted], by rw [hn, hmax]; exact h.bounded,
    fun a r hr => ?_⟩
  · unfold Table.revAdd
    split
    · next hf => exact h.rev.push hf
    · exact h.rev.store
  · rw [revFind_revAdd] at hr
    split at hr
    · cases hr
      simp
    · exact h.listed a r hr

theorem Shape.revRemove (h : c.Shape) (t d : Bytes) : (c.revRemove t d).Shape := by
  obtain ⟨hdom, hn, hmax⟩ := revRemove_frame c t d
  refine ⟨hdom ▸ h.dom, ?_, by rw [hn, hdom, h.counted], by rw [hn, hmax]; exact h.bounded,
    fun a r hr => ?_⟩
  · unfold Table.revRemove
    split
    · exact h.rev
    · dsimp only
      split
      · exact h.rev.erase
      · exact h.rev.store
  · rw [h.revFind_revRemove] at hr
    split at hr
    · split at hr
      · cases hr
      · next hne =>
        cases hr
        exact hne
    · exact h.listed a r hr

theorem pointing_revAdd (c : Table) (t d a : Bytes) : (c.revAdd t d).pointing a =
    if a = t then c.pointing t ++ [d] else c.pointing a := by
  unfold pointing
  rw [revFind_revAdd]
  split <;> rfl

theorem swapRemove_perm (d : Bytes) (ds : List Bytes) : (swapRemove d ds).Perm (ds.erase d) := by
  rw [List.erase_eq_eraseIdx]
  unfold swapRemove
  split
  · next hnone => rw [hnone]
  · next i hi =>
    rw [hi]
    obtain ⟨hlt, -, -⟩ := List.idxOf?_eq_some_iff.mp hi
    obtain ⟨front, last, rfl⟩ := (List.eq_nil_or_concat' ds).resolve_left fun h => by simp [h] at hlt
    rw [List.length_append, List.length_singleton] at hlt
    rw [List.getLast?_concat]
    dsimp only [Option.getD_some]
    rcases Nat.lt_or_ge i front.length with hlt | hge
    · rw [List.set_append_left _ _ hlt, List.dropLast_concat, List.eraseIdx_append_of_lt_length hlt]
      exact (List.set_perm_cons_eraseIdx hlt _).trans (List.perm_append_singleton _ _).symm
    · obtain rfl : i = front.length := by omega
      rw [List.set_append_right _ _ le_rfl, List.eraseIdx_append_of_length_le le_rfl]
      simp

theorem Shape.pointing_revRemove (h : c.Shape) (t d a : Bytes) : (c.revRemove t d).pointing a =
    if a = t then swapRemove d (c.pointing t) else c.pointing a := by
  unfold pointing
  rw [h.revFind_revRemove]
  split
  · split
    · next hnil => exact hnil.symm
    · rfl
  · rfl

/-- The reverse table lists each name once under its alias by `f`, and nowhere else. -/
def Mirrors (c : Table) (f : Bytes → Option Bytes) : Prop :=
  ∀ target domain, (c.pointing target).count domain = if f domain = some target then 1 else 0

theorem Mirrors.of_rev {c' : Table} {f : Bytes → Option Bytes} (h : c.Mirrors f)
    (hrev : c'.rev = c.rev) : c'.Mirrors f := by
  intro a d
  have hp : c'.pointing a = c.pointing a := by
    unfold pointing revFind
    rw [hrev]
  rw [hp]
  exact h a d

theorem Mirrors.revRemove {f : Bytes → Option Bytes} (h : c.Mirrors f) (hs : c.Shape) {t d : Bytes}
    (hd : f d = some t) : (c.revRemove t d).Mirrors (Function.update f d none) := by
  intro a d'
  rw [hs.pointing_revRemove]
  split
  · next ha =>
    subst ha
    rw [(swapRemove_perm d _).count_eq, List.count_erase, h a d']
    by_cases hdd : d' = d
    · subst hdd
      simp [hd]
    · have hdd' : d ≠ d' := Ne.symm hdd
      simp [hdd, hdd']
  · next ha =>
    rw [h a d']
    by_cases hdd : d' = d
    · subst hdd
      simp [hd, Ne.symm ha]
    · rw [Function.update_of_ne hdd]

theorem Mirrors.revAdd {f : Bytes → Option Bytes} (h : c.Mirrors f) {t d : Bytes} (hd : f d = none) :
    (c.revAdd t d).Mirrors (Function.update f d (some t)) := by
  intro a d'
  rw [pointing_revAdd]
  have hcount := h a d'
  split
  · next ha =>
    subst ha
    rw [List.count_append, hcount]
    by_cases hdd : d' = d
    · subst hdd
      simp [hd]
    · have hdd' : d ≠ d' := Ne.symm hdd
      simp [hdd, hdd']
  · next ha =>
    rw [hcount]
    by_cases hdd : d' = d
    · subst hdd
      simp [hd, Ne.symm ha]
    · rw [Function.update_of_ne hdd]

theorem Mirrors.unlistAlias {f : Bytes → Option Bytes} (h : c.Mirrors f) (hs : c.Shape)
    {n : DomainNode} (hn : n.aliasTo.map Prod.fst = f n.domain) :
    (c.unlistAlias n).Shape ∧ (c.unlistAlias n).dom = c.dom ∧
      (c.unlistAlias n).Mirrors (Function.update f n.domain none) := by
  unfold Table.unlistAlias
  cases ha : n.aliasTo with
  | none =>
    rw [ha] at hn
    refine ⟨hs, rfl, ?_⟩
    rw [Function.update_eq_self_iff.mpr hn]
    exact h
  | some p =>
    rw [ha] at hn
    exact ⟨hs.revRemove _ _, (revRemove_frame ..).1, h.revRemove hs hn.symm⟩

/-! ## The calls -/

/-- The invariant after a call that acted on the node of one name. -/
theorem Inv.of_put (h : c.Inv) {c' : Table} (hshape : c'.Shape) {d : Bytes} {n : Option DomainNode}
    (hn : ∀ n', n = some n' → n'.Held)
    (hfind : ∀ d', c'.domFind d' = if d' = d then n else c.domFind d')
    (hmirror : c'.Mirrors (Function.update c.aliasOf d ((n.bind DomainNode.aliasTo).map Prod.fst))) :
    c'.Inv where
  toShape := hshape
  held := fun d' n' hn' => by
    rw [hfind] at hn'
    split at hn'
    · exact hn n' hn'
    · exact h.held d' n' hn'
  mirror := by
    have haliasOf : c'.aliasOf =
        Function.update c.aliasOf d ((n.bind DomainNode.aliasTo).map Prod.fst) := by
      funext d'
      unfold aliasOf
      rw [hfind]
      by_cases hd : d' = d
      · rw [if_pos hd, hd, Function.update_self]
      · rw [if_neg hd, Function.update_of_ne hd]
    rw [haliasOf]
    exact hmirror

theorem putAddr_ne_nil (l : List CacheAddr) (a : CacheAddr) : putAddr l a ≠ [] := by
  cases l with
  | nil => exact List.cons_ne_nil _ _
  | cons b l =>
    unfold putAddr
    split <;> exact List.cons_ne_nil _ _

theorem map_putAddr (l : List CacheAddr) (a : CacheAddr) :
    (putAddr l a).map CacheAddr.addr =
      if a.addr ∈ l.map CacheAddr.addr then l.map CacheAddr.addr
      else l.map CacheAddr.addr ++ [a.addr] := by
  induction l with
  | nil => rfl
  | cons b l ih =>
    unfold putAddr
    by_cases hb : b.addr = a.addr
    · simp [hb]
    · rw [if_neg hb, List.map_cons, ih]
      by_cases hmem : a.addr ∈ l.map CacheAddr.addr
      · rw [if_pos hmem, if_pos (by simp [hmem])]
        rfl
      · rw [if_neg hmem, if_neg (by simpa [Ne.symm hb] using hmem)]
        rfl

theorem nodup_putAddr {l : List CacheAddr} (h : (l.map CacheAddr.addr).Nodup) (a : CacheAddr) :
    ((putAddr l a).map CacheAddr.addr).Nodup := by
  rw [map_putAddr]
  split
  · exact h
  · next hmem => exact List.nodup_append.mpr ⟨h, List.nodup_singleton _, by simpa using hmem⟩

/-- What `dom_find_or_create` returns: the node of the name, or a new one without anything. -/
structure Found (c : Table) (d : Bytes) (c' : Table) (n : DomainNode) : Prop where
  shape : c'.Shape
  rev : c'.rev = c.rev
  domain : n.domain = d
  distinct : (n.addrs.map CacheAddr.addr).Nodup
  noSelf : ∀ p, n.aliasTo = some p → p.1 ≠ d
  aliasOf : n.aliasTo.map Prod.fst = c.aliasOf d
  find : ∀ d', c'.domFind d' = if d' = d then some n else c.domFind d'

theorem Inv.found (h : c.Inv) {d : Bytes} {c' : Table} {n : DomainNode}
    (hc : c.domFindOrCreate d = some (c', n)) : c.Found d c' n := by
  obtain ⟨hshape, hrev, rfl, hfind⟩ := h.toShape.domFindOrCreate hc
  cases hf : c.domFind d with
  | none =>
    rw [hf] at hfind
    refine ⟨hshape, hrev, rfl, List.nodup_nil, fun p hp => ?_, ?_, hfind⟩
    · cases hp
    · unfold Table.aliasOf
      rw [hf]
      rfl
  | some n =>
    rw [hf] at hfind
    have hheld := h.held d n hf
    have hdom := domain_of_domFind hf
    refine ⟨hshape, hrev, hdom, hheld.distinct, fun p hp => hdom ▸ hheld.noSelf p hp, ?_, hfind⟩
    unfold Table.aliasOf
    rw [hf]
    rfl

theorem Found.domFind_domStore {d : Bytes} {c' : Table} {n : DomainNode} (h : c.Found d c' n)
    (n' : DomainNode) (hd : n'.domain = d) (d' : Bytes) :
    (c'.domStore n').domFind d' = if d' = d then some n' else c.domFind d' := by
  rw [Table.domFind_domStore (by rw [hd, h.find, if_pos rfl]; rfl), hd, h.find]
  split <;> rfl

theorem Inv.addAddress (h : c.Inv) (d addr : Bytes) (ttl : UInt32) (now : Int) :
    (c.addAddress d addr ttl now).Inv := by
  unfold Table.addAddress
  split
  · exact ⟨⟨h.dom, h.rev, h.counted, h.bounded, h.listed⟩, h.held, h.mirror⟩
  · next c₁ n hc =>
    have hf := h.found hc
    refine h.of_put (hf.shape.domStore _) (fun n' hn' => ?_)
      (hf.domFind_domStore { n with addrs := _ } hf.domain) ?_
    · cases hn'
      exact ⟨.inl (putAddr_ne_nil _ _), nodup_putAddr hf.distinct _,
        fun p hp => hf.domain.symm ▸ hf.noSelf p hp⟩
    · -- the alias is what it was
      show Mirrors _ (Function.update _ _ (n.aliasTo.map Prod.fst))
      rw [hf.aliasOf, Function.update_eq_self]
      exact Mirrors.of_rev h.mirror hf.rev

theorem Inv.addAlias (h : c.Inv) (d t : Bytes) (ttl : UInt32) (now : Int) :
    (c.addAlias d t ttl now).Inv := by
  unfold Table.addAlias
  split
  · exact h
  · next hself =>
    split
    · exact ⟨⟨h.dom, h.rev, h.counted, h.bounded, h.listed⟩, h.held, h.mirror⟩
    · next c₁ n hc =>
      have hf := h.found hc
      -- the name is out of the reverse table before it goes in under the new alias
      obtain ⟨hshape, hdom, hmirror⟩ := Mirrors.unlistAlias (Mirrors.of_rev h.mirror hf.rev)
        hf.shape (hf.domain.symm ▸ hf.aliasOf)
      rw [hf.domain] at hmirror
      refine h.of_put ((hshape.domStore _).revAdd _ _) (fun n' hn' => ?_) (fun d' => ?_) ?_
        (d := d) (n := some { n with aliasTo := some (t, now + ttl.toNat) })
      · cases hn'
        exact ⟨.inr rfl, hf.distinct, fun p hp => by
          cases hp
          exact hf.domain.symm ▸ Ne.symm hself⟩
      · unfold domFind
        rw [(revAdd_frame ..).1]
        unfold domStore
        rw [hdom]
        exact hf.domFind_domStore { n with aliasTo := some (t, now + ttl.toNat) } hf.domain d'
      · have hadd := Mirrors.revAdd (t := t) (d := d)
          (hmirror.of_rev (show ((c₁.unlistAlias n).domStore
            { n with aliasTo := some (t, now + ttl.toNat) }).rev = _ from rfl))
          (Function.update_self ..)
        rwa [Function.update_idem] at hadd

theorem Inv.expireAlias (h : c.Inv) {n : DomainNode} (hn : c.domFind n.domain = some n)
    {now : Int} {c' : Table} {aliasTo : Option (Bytes × Int)}
    (he : c.expireAlias now n = (c', aliasTo)) :
    c'.Shape ∧ c'.dom = c.dom ∧ (∀ p, aliasTo = some p → n.aliasTo = some p) ∧
      c'.Mirrors (Function.update c.aliasOf n.domain (aliasTo.map Prod.fst)) := by
  have halias : n.aliasTo.map Prod.fst = c.aliasOf n.domain := by
    unfold aliasOf
    rw [hn]
    rfl
  unfold Table.expireAlias at he
  split at he
  · next hnone =>
    cases he
    refine ⟨h.toShape, rfl, fun p hp => (nomatch hp), ?_⟩
    rw [Function.update_eq_self_iff.mpr (by rw [← halias, hnone])]
    exact h.mirror
  · next a deadline ha =>
    split at he
    · cases he
      obtain ⟨hshape, hdom, hmirror⟩ := Mirrors.unlistAlias h.mirror h.toShape halias
      exact ⟨hshape, hdom, fun p hp => (nomatch hp), hmirror⟩
    · cases he
      refine ⟨h.toShape, rfl, fun p hp => ha.trans hp, ?_⟩
      rw [Function.update_eq_self_iff.mpr (by rw [← halias, ha])]
      exact h.mirror

/-- A round of the cleanup at a node of the table, and what it leaves of the others. -/
theorem Inv.cleanupNode (h : c.Inv) {n : DomainNode} (hn : c.domFind n.domain = some n) (now : Int) :
    (c.cleanupNode now n).Inv ∧ ∀ d, d ≠ n.domain →
      (c.cleanupNode now n).domFind d = c.domFind d := by
  have hheld := h.held _ n hn
  unfold Table.cleanupNode
  cases he : c.expireAlias now n with
  | mk c₁ aliasTo =>
  obtain ⟨hshape, hdom, hfrom, hmirror⟩ := h.expireAlias hn he
  have hfind₁ : ∀ d, c₁.domFind d = c.domFind d := fun d => by
    unfold domFind
    rw [hdom]
  have hsome : (c₁.domFind n.domain).isSome := by simp [hfind₁, hn]
  dsimp only
  split
  · next hempty =>
    have hfind : ∀ d, (c₁.domRemove n.domain).domFind d =
        if d = n.domain then none else c.domFind d := fun d => by
      rw [hshape.domFind_domRemove, hfind₁]
    refine ⟨h.of_put (hshape.domRemove hsome) (fun n' hn' => ?_) hfind ?_, fun d hd => ?_⟩
    · cases hn'
    · rw [hempty.2] at hmirror
      exact hmirror.of_rev rfl
    · rw [hfind, if_neg hd]
  · next hne =>
    generalize hn₁ : ({ n with addrs := _, aliasTo := _ } : DomainNode) = n₁
    have hfind : ∀ d, (c₁.domStore n₁).domFind d =
        if d = n.domain then some n₁ else c.domFind d := fun d => by
      have hkey : n₁.domain = n.domain := by rw [← hn₁]
      rw [domFind_domStore (hkey.symm ▸ hsome), hkey, hfind₁]
    refine ⟨h.of_put (hshape.domStore _) (fun n' hn' => ?_) hfind ?_, fun d hd => ?_⟩
    · cases hn'
      subst hn₁
      refine ⟨?_, hheld.distinct.sublist (List.filter_sublist.map _), fun p hp =>
        hheld.noSelf p (hfrom p hp)⟩
      by_cases hnil : n.addrs.filter (fun a => a.deadline > now) = []
      · exact .inr (Option.isSome_iff_ne_none.mpr fun ha => hne ⟨hnil, ha⟩)
      · exact .inl hnil
    · subst hn₁
      exact hmirror.of_rev rfl
    · rw [hfind, if_neg hd]

theorem Inv.cleanup (h : c.Inv) (now : Int) : (c.cleanup now).Inv := by
  unfold Table.cleanup
  have hnodup := h.dom.nodup_nodes
  have hfind : ∀ n ∈ Chained.nodes c.dom, c.domFind n.domain = some n := fun n hn =>
    h.dom.mem_nodes_iff.mp hn
  generalize Chained.nodes c.dom = ns at hnodup hfind
  -- the nodes still to come are as they were at the start
  induction ns generalizing c with
  | nil => exact h
  | cons n ns ih =>
    rw [List.map_cons, List.nodup_cons] at hnodup
    obtain ⟨hinv, hother⟩ := h.cleanupNode (hfind n (List.mem_cons_self ..)) now
    refine ih hinv hnodup.2 fun n' hn' => ?_
    rw [hother _ fun hd => hnodup.1 (hd ▸ List.mem_map_of_mem hn')]
    exact hfind n' (List.mem_cons_of_mem _ hn')

theorem Inv.step (h : c.Inv) (op : Op) : (c.step op).Inv := by
  cases op with
  | addAddress domain addr ttl now => exact h.addAddress domain addr ttl now
  | addAlias domain target ttl now => exact h.addAlias domain target ttl now
  | cleanup now => exact h.cleanup now

theorem Inv.run (h : c.Inv) (ops : List Op) : (c.run ops).Inv := by
  induction ops generalizing c with
  | nil => exact h
  | cons op ops ih => exact ih (h.step op)

/-- **The cache is coherent** after every run of its calls. -/
theorem run_coherent (maxDomains : Nat) (ops : List Op) : ((create maxDomains).run ops).Coherent :=
  ((inv_create maxDomains).run ops).coherent

end Table

end MagiTrickle.DnsCache
