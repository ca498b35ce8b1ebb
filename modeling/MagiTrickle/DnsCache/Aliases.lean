import MagiTrickle.DnsCache.Mirror
import Mathlib.Logic.Relation

/-!
# Aliases and addresses (`dns_cache/cache.c`)

The alias of a name is an edge of a graph. `getAliases` collects the names that
lead to a name, by the reverse table and without regard to deadlines;
`cacheGetAddresses` follows the unexpired edges from a name to the first name
with an unexpired address.
-/

namespace MagiTrickle.DnsCache

namespace Table

/-- `str_list_push` of a name that is not there yet. -/
def pushNew (result : List Bytes) (name : Bytes) : List Bytes :=
  if name ∈ result then result else result ++ [name]

/-- The loop of `mt_cache_get_aliases`. A name is pushed on the queue exactly when it is pushed on
the result, so the two are one list, read from `head` on. -/
def aliasesLoop (c : Table) : Nat → List Bytes → Nat → List Bytes
  | 0, result, _ => result
  | fuel + 1, result, head =>
    match result[head]? with
    | none => result
    | some cur => aliasesLoop c fuel ((c.pointing cur).foldl pushNew result) (head + 1)

/-- `mt_cache_get_aliases`. The queue holds `domain` and names of nodes, so its length bounds the
rounds (`mem_getAliases`). -/
def getAliases (c : Table) (domain : Bytes) : List Bytes :=
  aliasesLoop c (c.nDomains + 1) [domain] 0

/-- The alias of `d` is `t`. -/
def Edge (c : Table) (d t : Bytes) : Prop := c.aliasOf d = some t

variable {c : Table}

theorem Inv.mem_pointing (h : c.Inv) {d t : Bytes} : d ∈ c.pointing t ↔ c.Edge d t := by
  rw [← List.count_pos_iff, h.mirror t d]
  unfold Edge
  split <;> simp_all

/-! ## Names that lead to a name -/

theorem mem_foldl_pushNew {ps result : List Bytes} {x : Bytes} :
    x ∈ ps.foldl pushNew result ↔ x ∈ result ∨ x ∈ ps := by
  induction ps generalizing result with
  | nil => simp
  | cons p ps ih =>
    rw [List.foldl_cons, ih, pushNew]
    split
    · next hp =>
      rw [List.mem_cons]
      constructor
      · rintro (h | h)
        · exact .inl h
        · exact .inr (.inr h)
      · rintro (h | rfl | h)
        · exact .inl h
        · exact .inl hp
        · exact .inr h
    · rw [List.mem_append, List.mem_singleton, List.mem_cons, or_assoc]

theorem nodup_foldl_pushNew {ps result : List Bytes} (h : result.Nodup) :
    (ps.foldl pushNew result).Nodup := by
  induction ps generalizing result with
  | nil => exact h
  | cons p ps ih =>
    rw [List.foldl_cons]
    refine ih ?_
    unfold pushNew
    split
    · exact h
    · next hp =>
      rw [← List.concat_eq_append]
      exact h.concat hp

theorem prefix_foldl_pushNew (ps result : List Bytes) : result <+: ps.foldl pushNew result := by
  induction ps generalizing result with
  | nil => exact  List.prefix_rfl
  | cons p ps ih =>
    refine List.IsPrefix.trans ?_ (ih (pushNew result p))
    unfold pushNew
    split
    · exact  List.prefix_rfl
    · exact  List.prefix_append ..

/-- The loop invariant: what is on the list leads to `domain`, and up to `head` everything that
points to a name of the list is on it. -/
structure Collects (c : Table) (domain : Bytes) (result : List Bytes) (head : Nat) : Prop where
  nodup : result.Nodup
  start : domain ∈ result
  sound : ∀ x ∈ result, Relation.ReflTransGen c.Edge x domain
  complete : ∀ i < head, ∀ y, result[i]? = some y → ∀ x, c.Edge x y → x ∈ result

theorem Collects.step (h : c.Inv) {domain : Bytes} {result : List Bytes} {head : Nat}
    (hc : Collects c domain result head) {cur : Bytes} (hcur : result[head]? = some cur) :
    Collects c domain ((c.pointing cur).foldl pushNew result) (head + 1) := by
  obtain ⟨more, hmore⟩ := prefix_foldl_pushNew (c.pointing cur) result
  have hlt : head < result.length := (List.getElem?_eq_some_iff.mp hcur).1
  refine ⟨nodup_foldl_pushNew hc.nodup, mem_foldl_pushNew.mpr (.inl hc.start), fun x hx => ?_,
    fun i hi y hy x hxy => ?_⟩
  · rcases mem_foldl_pushNew.mp hx with hx | hx
    · exact hc.sound x hx
    · exact .head (h.mem_pointing.mp hx) (hc.sound cur (List.mem_of_getElem? hcur))
  · rw [← hmore, List.getElem?_append_left (by omega)] at hy
    rw [mem_foldl_pushNew]
    rcases Nat.lt_succ_iff_lt_or_eq.mp hi with hi | rfl
    · exact .inl (hc.complete i hi y hy x hxy)
    · rw [hcur] at hy
      cases hy
      exact .inr (h.mem_pointing.mpr hxy)

/-- Apart from `domain` only names of nodes are collected. -/
theorem Collects.length_le (h : c.Inv) {domain : Bytes} {result : List Bytes} {head : Nat}
    (hc : Collects c domain result head) : result.length ≤ c.nDomains + 1 := by
  have hsub : result ⊆ domain :: (Lib.Chained.nodes c.dom).map DomainNode.domain := by
    intro x hx
    rcases Relation.ReflTransGen.cases_head (hc.sound x hx) with rfl | ⟨y, hxy, -⟩
    · exact List.mem_cons_self ..
    · refine List.mem_cons_of_mem _ (List.mem_map.mpr ?_)
      unfold Edge aliasOf at hxy
      cases hf : c.domFind x with
      | none =>
        rw [hf] at hxy
        cases hxy
      | some n =>
        have hdom := domain_of_domFind hf
        refine ⟨n, h.dom.mem_nodes_iff.mpr ?_, hdom⟩
        rw [hdom]
        exact hf
  have hlen := (List.subperm_of_subset hc.nodup hsub).length_le
  rw [List.length_cons, List.length_map, ← h.counted] at hlen
  exact hlen

theorem mem_aliasesLoop (h : c.Inv) {domain : Bytes} {fuel : Nat} {result : List Bytes} {head : Nat}
    (hc : Collects c domain result head) (hfuel : c.nDomains + 1 ≤ fuel + head) {x : Bytes} :
    x ∈ aliasesLoop c fuel result head ↔ Relation.ReflTransGen c.Edge x domain := by
  -- at the end every name of the list has been looked at
  have hend : ∀ {result : List Bytes} {head : Nat}, Collects c domain result head →
      result.length ≤ head → (x ∈ result ↔ Relation.ReflTransGen c.Edge x domain) := by
    intro result head hc hle
    refine ⟨hc.sound x, fun hx => ?_⟩
    induction hx using Relation.ReflTransGen.head_induction_on with
    | refl => exact hc.start
    | head hxy _ ih =>
      obtain ⟨i, hi, hy⟩ := List.getElem_of_mem ih
      exact hc.complete i (by omega) _ (by rw [List.getElem?_eq_getElem hi, hy]) _ hxy
  induction fuel generalizing result head with
  | zero => exact hend hc ((hc.length_le h).trans (by omega))
  | succ fuel ih =>
    rw [aliasesLoop]
    cases hcur : result[head]? with
    | none => exact hend hc (List.getElem?_eq_none_iff.mp hcur)
    | some cur => exact ih (hc.step h hcur) (by omega)

/-- **The aliases** of a name are the names that lead to it. -/
theorem Inv.mem_getAliases (h : c.Inv) {domain x : Bytes} :
    x ∈ c.getAliases domain ↔ Relation.ReflTransGen c.Edge x domain := by
  refine mem_aliasesLoop h ⟨List.nodup_singleton _, List.mem_singleton_self _, fun y hy => ?_,
    fun i hi => absurd hi (Nat.not_lt_zero i)⟩ (Nat.le_refl _)
  rw [List.mem_singleton.mp hy]

theorem Inv.domFind_cache (h : c.Inv) (d : Bytes) : DnsCache.domFind c.cache d = c.domFind d := by
  unfold DnsCache.domFind Table.domFind Table.cache
  dsimp only
  rw [← h.dom.find_nodes d]

end Table

/-! ## The walk to an address -/

def liveAddrs (c : Cache) (now : Int) (d : Bytes) : List CacheAddr :=
  match domFind c d with
  | none => []
  | some n => n.addrs.filter fun a => a.deadline > now

/-- The unexpired alias of `d` is `t`. -/
def LiveEdge (c : Cache) (now : Int) (d t : Bytes) : Prop :=
  ∃ n deadline, domFind c d = some n ∧ n.aliasTo = some (t, deadline) ∧ now < deadline

/-- A chain of unexpired aliases from `d` to a name with the unexpired address `a`. -/
structure LeadsTo (c : Cache) (now : Int) (path : List Bytes) (d : Bytes) (a : CacheAddr) : Prop where
  chain : List.IsChain (LiveEdge c now) (d :: path)
  nodup : (d :: path).Nodup
  live : a ∈ liveAddrs c now ((d :: path).getLast (List.cons_ne_nil _ _))

variable {c : Cache} {now : Int}

section LeadsTo

variable {path : List Bytes} {d t : Bytes} {a : CacheAddr}

theorem LeadsTo.tail (h : LeadsTo c now (t :: path) d a) :
    LiveEdge c now d t ∧ LeadsTo c now path t a := by
  obtain ⟨hedge, hchain⟩ := List.isChain_cons_cons.mp h.chain
  have hlive := h.live
  rw [List.getLast_cons (List.cons_ne_nil _ _)] at hlive
  exact ⟨hedge, hchain, (List.nodup_cons.mp h.nodup).2, hlive⟩

theorem LeadsTo.cons (h : LeadsTo c now path t a) (hedge : LiveEdge c now d t)
    (hnodup : (d :: t :: path).Nodup) : LeadsTo c now (t :: path) d a := by
  refine ⟨List.isChain_cons_cons.mpr ⟨hedge, h.chain⟩, hnodup, ?_⟩
  rw [List.getLast_cons (List.cons_ne_nil _ _)]
  exact h.live

theorem LeadsTo.earlier {now' : Int} (h : LeadsTo c now path d a) (hle : now' ≤ now) :
    LeadsTo c now' path d a := by
  refine ⟨h.chain.imp ?_, h.nodup, ?_⟩
  · rintro x y ⟨n, deadline, hn, halias, hlt⟩
    exact ⟨n, deadline, hn, halias, by omega⟩
  · have hlive := h.live
    unfold liveAddrs at hlive ⊢
    split at hlive
    · cases hlive
    · obtain ⟨ha, hlt⟩ := List.mem_filter.mp hlive
      refine List.mem_filter.mpr ⟨ha, decide_eq_true ?_⟩
      have := of_decide_eq_true hlt
      omega

end LeadsTo

/-- One round of `mt_cache_get_addresses`. -/
theorem getAddressesFrom_eq (c : Cache) (now : Int) (room : Nat) (seen : List Bytes)
    (current : Bytes) :
    (liveAddrs c now current ≠ [] ∧
      getAddressesFrom c now room seen current = liveAddrs c now current) ∨
    (liveAddrs c now current = [] ∧
      ((∃ t, LiveEdge c now current t ∧ t ∉ seen ∧ ∃ room', room = room' + 1 ∧
        getAddressesFrom c now room seen current = getAddressesFrom c now room' (t :: seen) t) ∨
      ((∀ t, LiveEdge c now current t → room = 0 ∨ t ∈ seen) ∧
        getAddressesFrom c now room seen current = []))) := by
  rw [getAddressesFrom.eq_def]
  unfold liveAddrs LiveEdge
  dsimp only
  cases hf : domFind c current with
  | none =>
    refine .inr ⟨rfl, .inr ⟨?_, rfl⟩⟩
    rintro t ⟨n, dl, hn, -⟩
    cases hn
  | some n =>
    dsimp only
    split
    · next hv => exact .inl ⟨hv, rfl⟩
    · next hv =>
      refine .inr ⟨not_not.mp hv, ?_⟩
      cases ha : n.aliasTo with
      | none =>
        refine .inr ⟨?_, rfl⟩
        rintro t ⟨n', dl, hn, hal, -⟩
        cases hn
        rw [ha] at hal
        cases hal
      | some p =>
        obtain ⟨target, deadline⟩ := p
        dsimp only
        have honly : ∀ t, (∃ n' dl, some n = some n' ∧ n'.aliasTo = some (t, dl) ∧ now < dl) →
            t = target ∧ now < deadline := by
          rintro t ⟨n', dl, hn, hal, hlt⟩
          cases hn
          rw [ha] at hal
          cases hal
          exact ⟨rfl, hlt⟩
        split
        · next hexp => exact .inr ⟨fun t ht => absurd (honly t ht).2 (not_lt.mpr hexp), rfl⟩
        · next hexp =>
          cases room with
          | zero => exact .inr ⟨fun _ _ => .inl rfl, rfl⟩
          | succ room =>
            dsimp only
            split
            · next hseen => exact .inr ⟨fun t ht => .inr ((honly t ht).1 ▸ hseen), rfl⟩
            · next hseen =>
              exact .inl ⟨target, ⟨n, deadline, rfl, ha, not_le.mp hexp⟩, hseen, room, rfl, rfl⟩

theorem leadsTo_of_mem_getAddressesFrom {room : Nat} {seen : List Bytes} {current : Bytes}
    {a : CacheAddr} (hmem : current ∈ seen)
    (h : a ∈ getAddressesFrom c now room seen current) :
    ∃ path, LeadsTo c now path current a ∧ path.length ≤ room ∧ ∀ x ∈ path, x ∉ seen := by
  induction room generalizing seen current with
  | zero =>
    rcases getAddressesFrom_eq c now 0 seen current with ⟨-, he⟩ | ⟨-, ⟨t, -, -, _, h0, -⟩ | ⟨-, he⟩⟩
    · rw [he] at h
      exact ⟨[], ⟨List.IsChain.singleton _, List.nodup_singleton _, h⟩, Nat.le_refl _,
        fun x hx => absurd hx List.not_mem_nil⟩
    · cases h0
    · rw [he] at h
      cases h
  | succ room ih =>
    rcases getAddressesFrom_eq c now (room + 1) seen current with
      ⟨-, he⟩ | ⟨-, ⟨t, hedge, hseen, room', hr, he⟩ | ⟨-, he⟩⟩
    · rw [he] at h
      exact ⟨[], ⟨List.IsChain.singleton _, List.nodup_singleton _, h⟩, Nat.zero_le _,
        fun x hx => absurd hx List.not_mem_nil⟩
    · cases hr
      rw [he] at h
      obtain ⟨path, hl, hlen, hnew⟩ := ih (List.mem_cons_self ..) h
      have hfresh : ∀ x ∈ t :: path, x ∉ seen := fun x hx hs => by
        rcases List.mem_cons.mp hx with rfl | hx
        · exact hseen hs
        · exact hnew x hx (List.mem_cons_of_mem _ hs)
      refine ⟨t :: path, hl.cons hedge ?_, ?_, hfresh⟩
      · exact List.nodup_cons.mpr ⟨fun hc => hfresh current hc hmem, hl.nodup⟩
      · rw [List.length_cons]
        omega
    · rw [he] at h
      cases h

/-- The address of a name comes from the end of a chain of fewer than 65 names. -/
theorem leadsTo_of_mem_cacheGetAddresses {domain : Bytes} {a : CacheAddr}
    (h : a ∈ cacheGetAddresses c domain now) :
    ∃ path, LeadsTo c now path domain a ∧ path.length < maxSeen := by
  obtain ⟨path, hl, hlen, -⟩ := leadsTo_of_mem_getAddressesFrom (List.mem_singleton_self _) h
  exact ⟨path, hl, Nat.lt_of_le_of_lt hlen (by decide)⟩

theorem mem_getAddressesFrom {path : List Bytes} {room : Nat} {seen : List Bytes} {current : Bytes}
    {a : CacheAddr} (hl : LeadsTo c now path current a) (hlen : path.length ≤ room)
    (hseen : ∀ x ∈ path, x ∉ seen)
    (hclear : ∀ x ∈ (current :: path).dropLast, liveAddrs c now x = []) :
    a ∈ getAddressesFrom c now room seen current := by
  induction path generalizing room seen current with
  | nil =>
    have hlive : a ∈ liveAddrs c now current := hl.live
    rcases getAddressesFrom_eq c now room seen current with ⟨-, he⟩ | ⟨hnil, -⟩
    · rw [he]
      exact hlive
    · rw [hnil] at hlive
      cases hlive
  | cons t path ih =>
    obtain ⟨hedge, htail⟩ := hl.tail
    have hnil : liveAddrs c now current = [] := hclear current (by simp)
    have huniq : ∀ t', LiveEdge c now current t' → t' = t := by
      obtain ⟨n, dl, hn, hal, -⟩ := hedge
      rintro t' ⟨n', dl', hn', hal', -⟩
      rw [hn] at hn'
      cases hn'
      rw [hal] at hal'
      cases hal'
      rfl
    rw [List.length_cons] at hlen
    rcases getAddressesFrom_eq c now room seen current with
      ⟨hne, -⟩ | ⟨-, ⟨t', hedge', -, room', rfl, he⟩ | ⟨hstuck, -⟩⟩
    · exact absurd hnil hne
    · obtain rfl := huniq t' hedge'
      rw [he]
      have hnodup := List.nodup_cons.mp (List.nodup_cons.mp hl.nodup).2
      refine ih htail (by omega) (fun x hx hs => ?_) fun x hx => hclear x ?_
      · rcases List.mem_cons.mp hs with rfl | hs
        · exact hnodup.1 hx
        · exact hseen x (List.mem_cons_of_mem _ hx) hs
      · rw [List.dropLast_cons_of_ne_nil (List.cons_ne_nil _ _)]
        exact List.mem_cons_of_mem _ hx
    · rcases hstuck t hedge with h0 | hs
      · omega
      · exact absurd hs (hseen t (List.mem_cons_self ..))

/-- The walk reaches the end of a chain when no name before it has an unexpired address. -/
theorem mem_cacheGetAddresses {path : List Bytes} {domain : Bytes} {a : CacheAddr}
    (hl : LeadsTo c now path domain a) (hlen : path.length < maxSeen)
    (hclear : ∀ x ∈ (domain :: path).dropLast, liveAddrs c now x = []) :
    a ∈ cacheGetAddresses c domain now := by
  refine mem_getAddressesFrom hl ?_ (fun x hx hs => ?_) hclear
  · unfold maxSeen at *
    omega
  · rw [List.mem_singleton.mp hs] at hx
    exact (List.nodup_cons.mp hl.nodup).1 hx

end MagiTrickle.DnsCache
