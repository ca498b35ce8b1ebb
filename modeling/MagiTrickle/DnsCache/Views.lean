import MagiTrickle.DnsCache.Aliases

/-!
# What a call does to the records of a name

A name has addresses and an alias (`addrsOf`, `aliasTo`). Each call changes one
of the two for one name, unless the cache is full and the name is new.
-/

namespace MagiTrickle.DnsCache

namespace Table

def addrsOf (c : Table) (d : Bytes) : List CacheAddr :=
  ((c.domFind d).map DomainNode.addrs).getD []

def aliasTo (c : Table) (d : Bytes) : Option (Bytes × Int) := (c.domFind d).bind DomainNode.aliasTo

def Full (c : Table) (d : Bytes) : Prop := c.domFind d = none ∧ c.maxDomains ≤ c.nDomains

instance (c : Table) (d : Bytes) : Decidable (c.Full d) := inferInstanceAs (Decidable (_ ∧ _))

variable {c : Table}

theorem aliasOf_eq (c : Table) (d : Bytes) : c.aliasOf d = (c.aliasTo d).map Prod.fst := rfl

theorem edge_iff {d t : Bytes} : c.Edge d t ↔ ∃ deadline, c.aliasTo d = some (t, deadline) := by
  unfold Edge
  rw [aliasOf_eq]
  cases c.aliasTo d with
  | none => simp
  | some p =>
    obtain ⟨a, deadline⟩ := p
    simp

theorem Inv.liveAddrs_cache (h : c.Inv) (now : Int) (d : Bytes) :
    liveAddrs c.cache now d = (c.addrsOf d).filter fun a => a.deadline > now := by
  unfold liveAddrs addrsOf
  rw [h.domFind_cache]
  cases c.domFind d <;> rfl

theorem Inv.liveEdge_cache (h : c.Inv) {now : Int} {d t : Bytes} :
    LiveEdge c.cache now d t ↔ ∃ deadline, c.aliasTo d = some (t, deadline) ∧ now < deadline := by
  unfold LiveEdge aliasTo
  rw [h.domFind_cache]
  cases c.domFind d with
  | none => simp
  | some n => simp

theorem domFindOrCreate_eq_none {d : Bytes} : c.domFindOrCreate d = none ↔ c.Full d := by
  unfold domFindOrCreate Full
  split
  · next n hf => simp [hf]
  · next hf =>
    split
    · next hfull => simpa [hf] using hfull
    · next hroom => simpa [hf] using hroom

theorem mem_putAddr {l : List CacheAddr} (hnd : (l.map CacheAddr.addr).Nodup) {a b : CacheAddr} :
    b ∈ putAddr l a ↔ b = a ∨ (b ∈ l ∧ b.addr ≠ a.addr) := by
  induction l with
  | nil => simp [putAddr]
  | cons x l ih =>
    rw [List.map_cons, List.nodup_cons] at hnd
    unfold putAddr
    by_cases hx : x.addr = a.addr
    · have hxa : ({ x with deadline := a.deadline } : CacheAddr) = a := by
        cases a
        cases x
        simp_all
      have hrest : ∀ y ∈ l, y.addr ≠ a.addr := fun y hy he =>
        hnd.1 (hx ▸ he ▸ List.mem_map_of_mem hy)
      rw [if_pos hx, hxa, List.mem_cons, List.mem_cons]
      constructor
      · rintro (rfl | hb)
        · exact .inl rfl
        · exact .inr ⟨.inr hb, hrest b hb⟩
      · rintro (rfl | ⟨rfl | hb, hne⟩)
        · exact .inl rfl
        · exact absurd hx hne
        · exact .inr hb
    · rw [if_neg hx, List.mem_cons, ih hnd.2, List.mem_cons]
      constructor
      · rintro (rfl | rfl | ⟨hb, hne⟩)
        · exact .inr ⟨.inl rfl, hx⟩
        · exact .inl rfl
        · exact .inr ⟨.inr hb, hne⟩
      · rintro (rfl | ⟨rfl | hb, hne⟩)
        · exact .inr (.inl rfl)
        · exact .inl rfl
        · exact .inr (.inr ⟨hb, hne⟩)

theorem Inv.nodup_addrsOf (h : c.Inv) (d : Bytes) : ((c.addrsOf d).map CacheAddr.addr).Nodup := by
  unfold addrsOf
  cases hf : c.domFind d with
  | none => exact List.nodup_nil
  | some n => exact (h.held d n hf).distinct

/-- `mt_cache_add_address` on the views. -/
theorem Inv.addAddress_views (h : c.Inv) (d addr : Bytes) (ttl : UInt32) (now : Int) :
    (c.addAddress d addr ttl now).aliasTo = c.aliasTo ∧
      (c.Full d → (c.addAddress d addr ttl now).addrsOf = c.addrsOf) ∧
      (¬ c.Full d → (c.addAddress d addr ttl now).addrsOf = Function.update c.addrsOf d
        (putAddr (c.addrsOf d) ⟨addr, now + ttl.toNat⟩)) := by
  unfold Table.addAddress
  split
  · next hfull => exact ⟨rfl, fun _ => rfl, fun hn => absurd (domFindOrCreate_eq_none.mp hfull) hn⟩
  · next c₁ n hc =>
    have hf := h.found hc
    have hroom : ¬ c.Full d := fun hfull => by
      rw [domFindOrCreate_eq_none.mpr hfull] at hc
      cases hc
    have hn : n = (c.domFind d).getD ⟨d, [], none⟩ := (h.toShape.domFindOrCreate hc).2.2.1
    have hfind := hf.domFind_domStore { n with addrs := putAddr n.addrs ⟨addr, now + ttl.toNat⟩ }
      hf.domain
    refine ⟨?_, fun hfull => absurd hfull hroom, fun _ => ?_⟩
    · funext d'
      unfold Table.aliasTo
      rw [hfind]
      split
      · next hd =>
        rw [hd, hn]
        cases c.domFind d <;> rfl
      · rfl
    · funext d'
      unfold addrsOf
      rw [hfind]
      by_cases hd : d' = d
      · rw [if_pos hd, hd, Function.update_self, hn]
        cases c.domFind d <;> rfl
      · rw [if_neg hd, Function.update_of_ne hd]

/-- `mt_cache_add_alias` on the views. -/
theorem Inv.addAlias_views (h : c.Inv) (d t : Bytes) (ttl : UInt32) (now : Int) :
    (c.addAlias d t ttl now).addrsOf = c.addrsOf ∧
      (d = t ∨ c.Full d → (c.addAlias d t ttl now).aliasTo = c.aliasTo) ∧
      (d ≠ t → ¬ c.Full d → (c.addAlias d t ttl now).aliasTo =
        Function.update c.aliasTo d (some (t, now + ttl.toNat))) := by
  unfold Table.addAlias
  split
  · next hself => exact ⟨rfl, fun _ => rfl, fun hne => absurd hself hne⟩
  · next hself =>
    split
    · next hfull =>
      exact ⟨rfl, fun _ => rfl, fun _ hn => absurd (domFindOrCreate_eq_none.mp hfull) hn⟩
    · next c₁ n hc =>
      have hf := h.found hc
      have hroom : ¬ c.Full d := fun hfull => by
        rw [domFindOrCreate_eq_none.mpr hfull] at hc
        cases hc
      have hn : n = (c.domFind d).getD ⟨d, [], none⟩ := (h.toShape.domFindOrCreate hc).2.2.1
      obtain ⟨-, hdom, -⟩ := Mirrors.unlistAlias (Mirrors.of_rev h.mirror hf.rev) hf.shape
        (hf.domain.symm ▸ hf.aliasOf)
      have hfind : ∀ d', (((c₁.unlistAlias n).domStore
          { n with aliasTo := some (t, now + ttl.toNat) }).revAdd t d).domFind d' =
          if d' = d then some { n with aliasTo := some (t, now + ttl.toNat) } else c.domFind d' := by
        intro d'
        unfold Table.domFind
        rw [(revAdd_frame ..).1]
        unfold Table.domStore
        rw [hdom]
        exact hf.domFind_domStore { n with aliasTo := some (t, now + ttl.toNat) } hf.domain d'
      refine ⟨?_, fun hno => absurd hno (not_or.mpr ⟨hself, hroom⟩), fun _ _ => ?_⟩
      · funext d'
        unfold addrsOf
        rw [hfind]
        split
        · next hd =>
          rw [hd, hn]
          cases c.domFind d <;> rfl
        · rfl
      · funext d'
        unfold Table.aliasTo
        rw [hfind]
        by_cases hd : d' = d
        · rw [if_pos hd, hd, Function.update_self]
          rfl
        · rw [if_neg hd, Function.update_of_ne hd]

theorem maxDomains_domFindOrCreate {d : Bytes} {c' : Table} {n : DomainNode}
    (hc : c.domFindOrCreate d = some (c', n)) : c'.maxDomains = c.maxDomains := by
  unfold domFindOrCreate at hc
  split at hc
  · cases hc
    rfl
  · split at hc
    · cases hc
    · cases hc
      rfl

theorem maxDomains_addAddress (c : Table) (d addr : Bytes) (ttl : UInt32) (now : Int) :
    (c.addAddress d addr ttl now).maxDomains = c.maxDomains := by
  unfold addAddress
  split
  · rfl
  · next c₁ n hc =>
    show c₁.maxDomains = _
    exact maxDomains_domFindOrCreate hc

theorem maxDomains_addAlias (c : Table) (d t : Bytes) (ttl : UInt32) (now : Int) :
    (c.addAlias d t ttl now).maxDomains = c.maxDomains := by
  unfold addAlias
  split
  · rfl
  · split
    · rfl
    · next c₁ n hc =>
      rw [(revAdd_frame ..).2.2]
      show (c₁.unlistAlias n).maxDomains = _
      unfold unlistAlias
      split
      · exact maxDomains_domFindOrCreate hc
      · rw [(revRemove_frame ..).2.2]
        exact maxDomains_domFindOrCreate hc

theorem views_create (maxDomains : Nat) (d : Bytes) :
    (create maxDomains).addrsOf d = [] ∧ (create maxDomains).aliasTo d = none := ⟨rfl, rfl⟩

end Table

end MagiTrickle.DnsCache
