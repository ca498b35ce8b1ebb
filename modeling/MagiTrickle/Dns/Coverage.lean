import MagiTrickle.Dns.AnswerOrder
import MagiTrickle.Lib.Runs
import MagiTrickle.Netfilter.SyncCorrect
import MagiTrickle.Rules.MatchIndex

/-!
# What a resync wants has been emitted

The sync of a group lists the addresses that the names it matches lead to. The
pipeline has emitted them before, with a lifetime that is at least as long,
except where a CNAME was handled while a name on its chain had an address of its
own: the walk stops there, and what stands behind is not reported.
-/

namespace MagiTrickle.Pipeline

open MagiTrickle.DnsCache MagiTrickle.Rules MagiTrickle.Netfilter MagiTrickle.Dns.Wire Relation Lib.Runs

/-! ## Runs of the pipeline -/

structure Feed where
  cache : Table
  emitted : List (Int × Action)

def Feed.start (maxDomains : Nat) : Feed := ⟨Table.create maxDomains, []⟩

def feed (s : Settings) (st : Feed) (m : Int × Msg) : Feed :=
  let (cache, acts) := handleMessage s st.cache m.2 m.1
  ⟨cache, st.emitted ++ acts.map (m.1, ·)⟩

def records (s : Settings) (m : Int × Msg) : List (Int × Record) :=
  if m.2.flags &&& 0x000f ≠ 0 then [] else (m.2.answers.filterMap (decode s)).map (m.1, ·)

theorem fst_of_mem_records {s : Settings} {m : Int × Msg} {e : Int × Record}
    (h : e ∈ records s m) : e.1 = m.1 := by
  unfold records at h
  split at h
  · cases h
  · obtain ⟨r, -, rfl⟩ := List.mem_map.mp h
    rfl

theorem pairwise_records (s : Settings) {log : List (Int × Msg)}
    (h : log.Pairwise fun m m' => m.1 ≤ m'.1) :
    (log.flatMap (records s)).Pairwise fun e e' => e.1 ≤ e'.1 := by
  refine List.pairwise_flatMap.mpr ⟨fun m _ => ?_, h.imp fun hle e he e' he' => ?_⟩
  · refine List.pairwise_of_forall_mem_list fun e he e' he' => ?_
    rw [fst_of_mem_records he, fst_of_mem_records he']
  · rw [fst_of_mem_records he, fst_of_mem_records he']
    exact hle

def feedRecord (s : Settings) (st : Feed) (e : Int × Record) : Feed :=
  let cache := cacheRecord st.cache e.1 e.2
  ⟨cache, st.emitted ++ (report s cache e.1 e.2).map (e.1, ·)⟩

theorem foldl_feedRecord (s : Settings) (now : Int) (st : Feed) (rs : List Record) :
    (rs.map (now, ·)).foldl (feedRecord s) st =
      ⟨rs.foldl (cacheRecord · now) st.cache,
        st.emitted ++ (reports s now st.cache rs).map (now, ·)⟩ := by
  induction rs generalizing st with
  | nil => simp [reports]
  | cons r rs ih =>
    rw [List.map_cons, List.foldl_cons, ih]
    simp [feedRecord, reports]

theorem feed_eq (s : Settings) (st : Feed) (m : Int × Msg) :
    feed s st m = (records s m).foldl (feedRecord s) st := by
  unfold feed records handleMessage
  by_cases h : m.2.flags &&& 0x000f ≠ 0
  · rw [if_pos h, if_pos h]
    simp
  · rw [if_neg h, if_neg h, foldl_feedRecord, handleRecords_eq]

theorem foldl_feed (s : Settings) (st : Feed) (log : List (Int × Msg)) :
    log.foldl (feed s) st = (log.flatMap (records s)).foldl (feedRecord s) st := by
  induction log generalizing st with
  | nil => rfl
  | cons m log ih => rw [List.foldl_cons, ih, feed_eq, List.flatMap_cons, List.foldl_append]

/-! ## What the emitted actions cover -/

/-- When a CNAME is in the cache, no name on the chain from its owner has an unexpired address besides
an unexpired alias. -/
def Unshadowed (s : Settings) (st : Feed) (e : Int × Record) : Prop :=
  ∀ d t ttl, e.2 = .cname d t ttl → ∀ x y,
    ReflTransGen (LiveEdge (feedRecord s st e).cache.cache e.1) d x →
    LiveEdge (feedRecord s st e).cache.cache e.1 x y →
    liveAddrs (feedRecord s st e).cache.cache e.1 x = []

/-- The group has been given the address until the deadline or longer. -/
def CoveredBy (emitted : List (Int × Action)) (id : Id) (a : CacheAddr) : Prop :=
  ∃ T act, (T, act) ∈ emitted ∧ act.groupId = id ∧ act.addr = a.addr ∧
    a.deadline ≤ T + (act.ttl.toNat : Int)

/-- The invariant at time `τ`: every address that a name leads to from then on is covered for the
groups that match the name. -/
structure Covered (s : Settings) (τ : Int) (st : Feed) : Prop where
  inv : st.cache.Inv
  bounded : ∀ d, ∀ a ∈ st.cache.addrsOf d, a.deadline < τ + 2 ^ 32
  covered : ∀ t, τ ≤ t → ∀ path n a, LeadsTo st.cache.cache t path n a → path.length < maxSeen →
    ∀ g ∈ s.snapshot, matcherMatch s.rx g.matcher n = true → CoveredBy st.emitted g.id a

theorem CoveredBy.append {l : List (Int × Action)} {id : Id} {a : CacheAddr} (h : CoveredBy l id a)
    (more : List (Int × Action)) : CoveredBy (l ++ more) id a := by
  obtain ⟨T, act, hmem, hact⟩ := h
  exact ⟨T, act, List.mem_append_left _ hmem, hact⟩

theorem covered_start (s : Settings) (τ : Int) (maxDomains : Nat) :
    Covered s τ (Feed.start maxDomains) where
  inv := Table.inv_create maxDomains
  bounded := fun d a ha => by
    change a ∈ (Table.create maxDomains).addrsOf d at ha
    rw [(Table.views_create maxDomains d).1] at ha
    cases ha
  covered := fun t _ path n a hl => by
    have hlive := hl.live
    change a ∈ liveAddrs (Table.create maxDomains).cache t _ at hlive
    rw [(Table.inv_create maxDomains).liveAddrs_cache, (Table.views_create maxDomains _).1] at hlive
    cases hlive

section Step

variable {c c' : Table} {t now : Int} {n d : Bytes} {a : CacheAddr} {path : List Bytes}

theorem liveEdge_of_aliasTo (h : c.Inv) (h' : c'.Inv) {x y : Bytes}
    (hx : c'.aliasTo x = c.aliasTo x) (he : LiveEdge c'.cache t x y) : LiveEdge c.cache t x y := by
  rw [h'.liveEdge_cache, hx] at he
  exact h.liveEdge_cache.mpr he

theorem leadsTo_of_aliasTo (h : c.Inv) (h' : c'.Inv) (halias : c'.aliasTo = c.aliasTo)
    (hl : LeadsTo c'.cache t path n a)
    (ha : a ∈ liveAddrs c.cache t ((n :: path).getLast (List.cons_ne_nil _ _))) :
    LeadsTo c.cache t path n a :=
  ⟨hl.chain.imp fun x _ => liveEdge_of_aliasTo h h' (congrFun halias x), hl.nodup, ha⟩

theorem edge_of_leadsTo (h : c.Inv) (hl : LeadsTo c.cache t path n a) :
    ReflTransGen c.Edge n ((n :: path).getLast (List.cons_ne_nil _ _)) := by
  refine List.relationReflTransGen_of_exists_isChain_cons path (hl.chain.imp fun x y hxy => ?_) rfl
  obtain ⟨deadline, he, -⟩ := h.liveEdge_cache.mp hxy
  exact Table.edge_iff.mpr ⟨deadline, he⟩

/-- A new alias of `d` adds the chains through `d`. -/
theorem leadsTo_addAlias (h : c.Inv) (h' : c'.Inv) (haddrs : c'.addrsOf = c.addrsOf)
    (halias : ∀ x, x ≠ d → c'.aliasTo x = c.aliasTo x) (hl : LeadsTo c'.cache t path n a) :
    LeadsTo c.cache t path n a ∨ ∃ suffix, suffix.length ≤ path.length ∧
      ReflTransGen c'.Edge n d ∧ LeadsTo c'.cache t suffix d a := by
  induction path generalizing n with
  | nil =>
    refine .inl ⟨.singleton _, List.nodup_singleton _, ?_⟩
    have hlive := hl.live
    rw [h'.liveAddrs_cache, haddrs] at hlive
    rw [h.liveAddrs_cache]
    exact hlive
  | cons y path ih =>
    by_cases hn : n = d
    · subst hn
      exact .inr ⟨y :: path, Nat.le_refl _, .refl, hl⟩
    · obtain ⟨hedge, htail⟩ := hl.tail
      rcases ih htail with hold | ⟨suffix, hlen, hreach, hsuf⟩
      · exact .inl (hold.cons (liveEdge_of_aliasTo h h' (halias n hn) hedge) hl.nodup)
      · obtain ⟨deadline, he, -⟩ := h'.liveEdge_cache.mp hedge
        refine .inr ⟨suffix, ?_, .head (Table.edge_iff.mpr ⟨deadline, he⟩) hreach, hsuf⟩
        rw [List.length_cons]
        omega

theorem bounded_cacheRecord (h : c.Inv) {τ : Int} (hτ : τ ≤ now)
    (hb : ∀ x, ∀ b ∈ c.addrsOf x, b.deadline < τ + 2 ^ 32) (r : Record) :
    ∀ x, ∀ b ∈ (cacheRecord c now r).addrsOf x, b.deadline < now + 2 ^ 32 := by
  have hold : ∀ x, ∀ b ∈ c.addrsOf x, b.deadline < now + 2 ^ 32 := fun x b hx => by
    have := hb x b hx
    omega
  cases r with
  | cname o target ttl =>
    show ∀ x, ∀ b ∈ (c.addAlias o target ttl now).addrsOf x, _
    rw [(h.addAlias_views o target ttl now).1]
    exact hold
  | addr o ip ttl =>
    show ∀ x, ∀ b ∈ (c.addAddress o ip ttl now).addrsOf x, _
    obtain ⟨-, hfull, hroom⟩ := h.addAddress_views o ip ttl now
    by_cases hf : c.Full o
    · rw [hfull hf]
      exact hold
    · rw [hroom hf]
      intro x b hx
      by_cases hxo : x = o
      · subst hxo
        rw [Function.update_self, Table.mem_putAddr (h.nodup_addrsOf x)] at hx
        rcases hx with rfl | ⟨hx, -⟩
        · have := ttl.toNat_lt
          show now + (ttl.toNat : Int) < _
          omega
        · exact hold x b hx
      · rw [Function.update_of_ne hxo] at hx
        exact hold x b hx

/-- An address that is there after `mt_cache_add_address` was there or is the new one. -/
theorem mem_liveAddrs_addAddress (h : c.Inv) {o ip : Bytes} {ttl : UInt32} {x : Bytes}
    (hx : a ∈ liveAddrs (c.addAddress o ip ttl now).cache t x) :
    a ∈ liveAddrs c.cache t x ∨ x = o ∧ a = ⟨ip, now + ttl.toNat⟩ := by
  rw [(h.addAddress o ip ttl now).liveAddrs_cache, List.mem_filter] at hx
  rw [h.liveAddrs_cache, List.mem_filter]
  obtain ⟨hmem, hlive⟩ := hx
  obtain ⟨-, hfull, hroom⟩ := h.addAddress_views o ip ttl now
  by_cases hf : c.Full o
  · rw [hfull hf] at hmem
    exact .inl ⟨hmem, hlive⟩
  · rw [hroom hf] at hmem
    by_cases hxo : x = o
    · subst hxo
      rw [Function.update_self, Table.mem_putAddr (h.nodup_addrsOf x)] at hmem
      rcases hmem with hnew | ⟨hold, -⟩
      · exact .inr ⟨rfl, hnew⟩
      · exact .inl ⟨hold, hlive⟩
    · rw [Function.update_of_ne hxo] at hmem
      exact .inl ⟨hmem, hlive⟩

end Step

/-- An address reports itself to every name that leads to its owner. -/
theorem Covered.addr {s : Settings} {τ now : Int} {st : Feed} (h : Covered s τ st) (hτ : τ ≤ now)
    (o ip : Bytes) (ttl : UInt32) : Covered s now (feedRecord s st (now, .addr o ip ttl)) where
  inv := h.inv.addAddress o ip ttl now
  bounded := bounded_cacheRecord h.inv hτ h.bounded (.addr o ip ttl)
  covered := by
    intro t ht path n a hl hlen g hg hm
    have hinv : (st.cache.addAddress o ip ttl now).Inv := h.inv.addAddress o ip ttl now
    have halias := (h.inv.addAddress_views o ip ttl now).1
    rcases mem_liveAddrs_addAddress h.inv hl.live with hold | ⟨hlast, rfl⟩
    · have hl' := leadsTo_of_aliasTo h.inv hinv halias hl hold
      exact (h.covered t (by omega) path n a hl' hlen g hg hm).append _
    · have hreach := edge_of_leadsTo hinv hl
      rw [hlast] at hreach
      refine ⟨now, ⟨g.id, ip, ttl⟩, List.mem_append_right _ (List.mem_map_of_mem ?_), rfl, rfl,
        Int.le_refl _⟩
      exact (mem_report_addr hinv).mpr ⟨g, hg, ⟨n, hreach, hm⟩, rfl⟩

/-- A CNAME reports the addresses behind it, unless one stands in front of them. -/
theorem Covered.cname {s : Settings} {τ now : Int} {st : Feed} (h : Covered s τ st) (hτ : τ ≤ now)
    (d target : Bytes) (ttl : UInt32) (hun : Unshadowed s st (now, .cname d target ttl)) :
    Covered s now (feedRecord s st (now, .cname d target ttl)) where
  inv := h.inv.addAlias d target ttl now
  bounded := bounded_cacheRecord h.inv hτ h.bounded (.cname d target ttl)
  covered := by
    intro t ht path n a hl hlen g hg hm
    have hinv : (st.cache.addAlias d target ttl now).Inv := h.inv.addAlias d target ttl now
    obtain ⟨haddrs, hsame, hnew⟩ := h.inv.addAlias_views d target ttl now
    have hoff : ∀ x, x ≠ d → (st.cache.addAlias d target ttl now).aliasTo x =
        st.cache.aliasTo x := by
      intro x hx
      by_cases hno : d = target ∨ st.cache.Full d
      · rw [hsame hno]
      · rw [not_or] at hno
        rw [hnew hno.1 hno.2, Function.update_of_ne hx]
    rcases leadsTo_addAlias h.inv hinv haddrs hoff hl with hold | ⟨suffix, hle, hreach, hsuf⟩
    · exact (h.covered t (by omega) path n a hold hlen g hg hm).append _
    · -- the walk from `d` goes to the end: on the way there are aliases, so no addresses
      have hnow : LeadsTo (st.cache.addAlias d target ttl now).cache now suffix d a :=
        hsuf.earlier ht
      have hmem := mem_cacheGetAddresses hnow (by omega) fun x hx => by
        obtain ⟨y, hxy⟩ := exists_edge_of_mem_dropLast hnow.chain hx
        refine hun d target ttl rfl x y ?_ hxy
        rcases List.mem_cons.mp (List.mem_of_mem_dropLast hx) with hxd | hx
        · rw [hxd]
        · exact (hnow.chain.imp fun _ _ => ReflTransGen.single).rel_cons hx
      have hlive := deadline_of_mem_cacheGetAddresses hmem
      have hbound : a.deadline < now + 2 ^ 32 := by
        have hlast := hnow.live
        rw [hinv.liveAddrs_cache] at hlast
        exact bounded_cacheRecord h.inv hτ h.bounded (.cname d target ttl) _ a
          (List.mem_filter.mp hlast).1
      refine ⟨now, ⟨g.id, a.addr, UInt32.ofNat (a.deadline - now).toNat⟩,
        List.mem_append_right _ (List.mem_map_of_mem ?_), rfl, rfl, ?_⟩
      · exact (mem_report_cname hinv).mpr ⟨g, hg, ⟨n, hreach, hm⟩, a, hmem, rfl⟩
      · rw [UInt32.toNat_ofNat_of_lt' (by show _ < 4294967296; omega)]
        omega

/-- **A record keeps what is wanted covered.** -/
theorem Covered.step {s : Settings} {τ : Int} {st : Feed} {e : Int × Record} (h : Covered s τ st)
    (hτ : τ ≤ e.1) (hun : Unshadowed s st e) : Covered s e.1 (feedRecord s st e) := by
  obtain ⟨now, r⟩ := e
  cases r with
  | addr o ip ttl => exact h.addr hτ o ip ttl
  | cname d target ttl => exact h.cname hτ d target ttl hun

/-- **So does a run** of records at times that do not decrease. -/
theorem Covered.run {s : Settings} {τ t : Int} {st : Feed} {events : List (Int × Record)}
    (h : Covered s τ st) (hτ : τ ≤ t) (hlate : ∀ e ∈ events, τ ≤ e.1 ∧ e.1 ≤ t)
    (hmono : events.Pairwise fun e e' => e.1 ≤ e'.1)
    (hun : Guarded (Unshadowed s) (feedRecord s) st events) :
    ∃ τ' ≤ t, Covered s τ' (events.foldl (feedRecord s) st) := by
  induction events generalizing τ st with
  | nil => exact ⟨τ, hτ, h⟩
  | cons e events ih =>
    obtain ⟨hle, hmono⟩ := List.pairwise_cons.mp hmono
    obtain ⟨hτe, het⟩ := hlate e (List.mem_cons_self ..)
    refine ih (h.step hτe hun.1) het (fun e' he' => ⟨hle e' he', ?_⟩) hmono hun.2
    exact (hlate e' (List.mem_cons_of_mem _ he')).2

/-! ## The sync -/

/-- The index of a group matches what one of its enabled rules matches. -/
theorem matcherMatch_snapshotEntry {rx : Bytes → Bytes → Bool} {grp : Config.Group}
    {rule : Config.Rule} (hr : rule ∈ grp.rules.items) (he : rule.enable = true) {n : Bytes}
    (hm : ruleMatcherMatch rx (ruleMatcherNew rule.type rule.rule) n = true) :
    matcherMatch rx (snapshotEntry grp).matcher n = true := by
  refine (matcherMatch_iff rx (enabledRules grp) n).mpr (.inl ⟨(rule.type, rule.rule), ?_, hm⟩)
  exact List.mem_map.mpr ⟨rule, List.mem_filter.mpr ⟨hr, he⟩, rfl⟩

/-- **What a resync wants has been emitted.** After a run of messages at times that do not decrease,
in which no CNAME was handled behind an unexpired address, every entry with a lifetime that the
sync of a group lists at a later time was emitted for the group, until the same deadline or
longer. -/
theorem sync_covered (s : Settings) (maxDomains : Nat) (log : List (Int × Msg))
    (hmono : log.Pairwise fun m m' => m.1 ≤ m'.1)
    (hun : Guarded (Unshadowed s) (feedRecord s) (Feed.start maxDomains) (log.flatMap (records s)))
    (t : Int) (ht : ∀ m ∈ log, m.1 ≤ t) (grp : Config.Group) (hg : snapshotEntry grp ∈ s.snapshot)
    (fam : Family) (e : NewEntry)
    (he : e ∈ (syncBuildNewLists s.rx grp
      (log.foldl (feed s) (Feed.start maxDomains)).cache.cache t).get fam)
    (hhost : e.hasTtl = true) :
    ∃ T act, (T, act) ∈ (log.foldl (feed s) (Feed.start maxDomains)).emitted ∧
      act.groupId = grp.id ∧ act.addr = e.subnet.addr ∧
      t + (e.ttl : Int) ≤ T + (act.ttl.toNat : Int) := by
  have hevents := pairwise_records s hmono
  have hbefore : ∀ ev ∈ log.flatMap (records s), ev.1 ≤ t := by
    intro ev hev
    obtain ⟨m, hm, hev⟩ := List.mem_flatMap.mp hev
    rw [fst_of_mem_records hev]
    exact ht m hm
  obtain ⟨τ, hτ, hcov⟩ : ∃ τ ≤ t, Covered s τ (log.foldl (feed s) (Feed.start maxDomains)) := by
    rw [foldl_feed]
    cases hev : log.flatMap (records s) with
    | nil => exact ⟨t, Int.le_refl _, covered_start s t maxDomains⟩
    | cons ev events =>
      rw [hev] at hevents hbefore hun
      refine (covered_start s ev.1 maxDomains).run (hbefore ev (List.mem_cons_self ..))
        (fun ev' hev' => ⟨?_, hbefore ev' hev'⟩) hevents hun
      rcases List.mem_cons.mp hev' with rfl | hev'
      · exact Int.le_refl _
      · exact (List.pairwise_cons.mp hevents).1 ev' hev'
  rw [get_syncBuildNewLists] at he
  obtain ⟨ip, r, hwant, hsub, httl⟩ := host_of_mem_runWants (fun _ hw => hw)
    (fun e' he' => absurd he' List.not_mem_nil) e he hhost
  obtain ⟨rule, hrule, hwant⟩ := List.mem_flatMap.mp hwant
  obtain ⟨hen, name, -, hm, a, ha, hip, -, hr⟩ := host_mem_ruleWants.mp hwant
  obtain ⟨path, hl, hlen⟩ := leadsTo_of_mem_cacheGetAddresses ha
  obtain ⟨T, act, hmem, hid, haddr, hle⟩ := hcov.covered t hτ path name a hl hlen _ hg
    (matcherMatch_snapshotEntry hrule hen hm)
  refine ⟨T, act, hmem, hid, by rw [haddr, hsub, hip], ?_⟩
  have hpos := deadline_of_mem_cacheGetAddresses ha
  have hbound : a.deadline < τ + 2 ^ 32 := by
    have hlive := hl.live
    rw [hcov.inv.liveAddrs_cache] at hlive
    exact hcov.bounded _ a (List.mem_filter.mp hlive).1
  rw [httl, ← hr, ttlOf_of_lt (by omega) (by omega)]
  omega

/-- The group of `groupOfA` in the configuration. -/
def configOfA : Config.Group where
  id := ⟨1, 0, 0, 0⟩
  name := str "group"
  color := str "#ffffff"
  iface := str "br0"
  enable := true
  rules := .exact [⟨⟨2, 0, 0, 0⟩, str "r", str "domain", str "a", true⟩]

/-- A CNAME in front of the first address meets no address. -/
theorem guarded_aliasResponse : Guarded (Unshadowed groupOfA) (feedRecord groupOfA) (Feed.start 0)
    ([(1000, aliasResponse)].flatMap (records groupOfA)) := by
  have hev : [((1000 : Int), aliasResponse)].flatMap (records groupOfA) =
      [(1000, .cname (str "a") (str "b") 60), (1000, .addr (str "b") [1, 2, 3, 4] 60)] := by
    decide +kernel
  rw [hev]
  refine ⟨fun d t ttl he x y _ _ => ?_, fun d t ttl he => (nomatch he), trivial⟩
  have hinv := Table.inv_create 0
  show liveAddrs ((Table.create 0).addAlias (str "a") (str "b") 60 1000).cache 1000 x = []
  rw [(hinv.addAlias _ _ _ _).liveAddrs_cache, (hinv.addAlias_views _ _ _ _).1,
    (Table.views_create 0 x).1]
  rfl

theorem sync_covered_alias :
    (⟨⟨[1, 2, 3, 4], 0⟩, true, 50⟩ : NewEntry) ∈ (syncBuildNewLists groupOfA.rx configOfA
      ([(1000, aliasResponse)].foldl (feed groupOfA) (Feed.start 0)).cache.cache 1010).get .v4 ∧
    ∃ T act, (T, act) ∈
        ([(1000, aliasResponse)].foldl (feed groupOfA) (Feed.start 0)).emitted ∧
      act.groupId = configOfA.id ∧ act.addr = [1, 2, 3, 4] ∧
      (1010 : Int) + (50 : Nat) ≤ T + (act.ttl.toNat : Int) := by
  have hlisted : (⟨⟨[1, 2, 3, 4], 0⟩, true, 50⟩ : NewEntry) ∈
      (syncBuildNewLists groupOfA.rx configOfA
        ([(1000, aliasResponse)].foldl (feed groupOfA) (Feed.start 0)).cache.cache 1010).get .v4 := by
    decide +kernel
  refine ⟨hlisted, ?_⟩
  exact sync_covered groupOfA 0 [(1000, aliasResponse)] (List.pairwise_singleton _ _)
    guarded_aliasResponse 1010 (by simp) configOfA (by decide +kernel) .v4 _ hlisted rfl

/-- `a` has an address for a short time and is an alias of `b`. -/
def shadowResponse : Msg where
  id := 0
  flags := 0x8180
  questions := []
  answers :=
    [⟨[1, 97, 0], typeA, 1, 10, [1, 2, 3, 4]⟩, ⟨[1, 98, 0], typeA, 1, 1000, [5, 6, 7, 8]⟩,
      ⟨[1, 97, 0], typeCname, 1, 1000, [1, 98, 0]⟩]
  authority := []
  additional := []

/-- The address of `b` is wanted when that of `a` has expired, and was never emitted. -/
theorem sync_not_covered :
    ⟨⟨[5, 6, 7, 8], 0⟩, true, 980⟩ ∈ (syncBuildNewLists groupOfA.rx configOfA
      ([(0, shadowResponse)].foldl (feed groupOfA) (Feed.start 0)).cache.cache 20).get .v4 ∧
    snapshotEntry configOfA ∈ groupOfA.snapshot ∧
    ([(0, shadowResponse)].foldl (feed groupOfA) (Feed.start 0)).cache.nDomains <
      ([(0, shadowResponse)].foldl (feed groupOfA) (Feed.start 0)).cache.maxDomains ∧
    ∀ p ∈ ([(0, shadowResponse)].foldl (feed groupOfA) (Feed.start 0)).emitted,
      p.2.addr ≠ [5, 6, 7, 8] := by
  decide +kernel

end MagiTrickle.Pipeline
