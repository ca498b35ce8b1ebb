import MagiTrickle.Dns.Records

/-!
# The order of the answers does not matter

A response that gives every name either addresses or one alias, with chains that
end, makes the pipeline emit the same pairs of a group and an address in every
order of its answers: those where the group matches a name whose chain leads to
the owner of the address. When the records of such a path have all been seen,
the last of them reports it: an address asks backwards for the names that lead
to it, a CNAME asks forwards for the addresses and backwards for the names.
-/

namespace MagiTrickle.Pipeline

open MagiTrickle.DnsCache MagiTrickle.Rules MagiTrickle.Dns.Wire Relation

/-! ## What a response stands for -/

section Spec

variable (rs : List Record)

/-- A CNAME from `d` to `t` is among the records. -/
def Cname (d t : Bytes) : Prop := ∃ ttl, .cname d t ttl ∈ rs

/-- An address record of `d` with `ip` is among the records. -/
def HasAddr (d ip : Bytes) : Prop := ∃ ttl, .addr d ip ttl ∈ rs

/-- Lifetimes are positive, a name has addresses or one CNAME, and the chains of CNAMEs are acyclic
and have fewer than 64 names. -/
structure Orderly : Prop where
  live : ∀ r ∈ rs, r.ttl ≠ 0
  oneAlias : ∀ d t t', Cname rs d t → Cname rs d t' → t = t'
  notBoth : ∀ d t ip, Cname rs d t → ¬ HasAddr rs d ip
  short : ∀ path : List Bytes, path.IsChain (Cname rs) → path.Nodup ∧ path.length < 64

/-- The pairs a response stands for. -/
def Wanted (s : Settings) (id : Id) (ip : Bytes) : Prop :=
  ∃ g ∈ s.snapshot, g.id = id ∧ ∃ n o, matcherMatch s.rx g.matcher n = true ∧
    ReflTransGen (Cname rs) n o ∧ HasAddr rs o ip

end Spec

section Order

variable {rs all : List Record}

theorem cname_append {r : Record} {d t : Bytes} :
    Cname (rs ++ [r]) d t ↔ Cname rs d t ∨ ∃ ttl, r = .cname d t ttl := by
  simp only [Cname, List.mem_append, List.mem_singleton, exists_or]
  exact or_congr_right (exists_congr fun ttl => eq_comm)

theorem hasAddr_append {r : Record} {d ip : Bytes} :
    HasAddr (rs ++ [r]) d ip ↔ HasAddr rs d ip ∨ ∃ ttl, r = .addr d ip ttl := by
  simp only [HasAddr, List.mem_append, List.mem_singleton, exists_or]
  exact or_congr_right (exists_congr fun ttl => eq_comm)

theorem Cname.mono (h : ∀ r ∈ rs, r ∈ all) {d t : Bytes} (hc : Cname rs d t) : Cname all d t :=
  hc.imp fun _ => h _

theorem Orderly.mono (h : Orderly all) (hsub : ∀ r ∈ rs, r ∈ all) : Orderly rs where
  live := fun r hr => h.live r (hsub r hr)
  oneAlias := fun d t t' ht ht' => h.oneAlias d t t' (ht.mono hsub) (ht'.mono hsub)
  notBoth := fun d t ip ht ⟨ttl, hip⟩ => h.notBoth d t ip (ht.mono hsub) ⟨ttl, hsub _ hip⟩
  short := fun path hp => h.short path (hp.imp fun _ _ hc => hc.mono hsub)

theorem Orderly.ne (h : Orderly all) {d t : Bytes} (hc : Cname all d t) : d ≠ t := by
  rintro rfl
  have := (h.short [d, d] (.cons_cons hc (.singleton _))).1
  simp at this

theorem exists_edge_of_mem_dropLast {α : Type} {R : α → α → Prop} {l : List α} (h : l.IsChain R)
    {x : α} (hx : x ∈ l.dropLast) : ∃ y, R x y := by
  induction l with
  | nil => cases hx
  | cons a l ih =>
    cases l with
    | nil => cases hx
    | cons b l =>
      obtain ⟨hab, hchain⟩ := List.isChain_cons_cons.mp h
      rw [List.dropLast_cons_of_ne_nil (List.cons_ne_nil _ _)] at hx
      rcases List.mem_cons.mp hx with rfl | hx
      · exact ⟨b, hab⟩
      · exact ih hchain hx

/-! ## The cache after some of the records -/

/-- The cache holds the records, none of them expired. -/
structure Holds (now : Int) (c : Table) (rs : List Record) : Prop where
  inv : c.Inv
  edge : ∀ d t, c.Edge d t ↔ Cname rs d t
  aliasLive : ∀ d t deadline, c.aliasTo d = some (t, deadline) → now < deadline
  addrs : ∀ d ip, (∃ a ∈ c.addrsOf d, a.addr = ip) ↔ HasAddr rs d ip
  addrsLive : ∀ d, ∀ a ∈ c.addrsOf d, now < a.deadline

variable {now : Int} {c : Table}

theorem holds_create (now : Int) (maxDomains : Nat) : Holds now (Table.create maxDomains) [] where
  inv := Table.inv_create maxDomains
  edge := fun d t => by
    rw [Table.edge_iff, (Table.views_create maxDomains d).2]
    simp [Cname]
  aliasLive := fun d t deadline h => by
    rw [(Table.views_create maxDomains d).2] at h
    cases h
  addrs := fun d ip => by
    rw [(Table.views_create maxDomains d).1]
    simp [HasAddr]
  addrsLive := fun d a ha => by
    rw [(Table.views_create maxDomains d).1] at ha
    cases ha

theorem Holds.owner_of_domFind (h : Holds now c rs) {d : Bytes} {n : DomainNode}
    (hn : c.domFind d = some n) : d ∈ rs.map Record.owner := by
  rcases (h.inv.held d n hn).something with hne | halias
  · obtain ⟨a, ha⟩ := List.exists_mem_of_ne_nil _ hne
    obtain ⟨ttl, hr⟩ := (h.addrs d a.addr).mp ⟨a, by unfold Table.addrsOf; rw [hn]; exact ha, rfl⟩
    exact List.mem_map.mpr ⟨_, hr, rfl⟩
  · obtain ⟨p, hp⟩ := Option.isSome_iff_exists.mp halias
    have hedge : c.Edge d p.1 := by
      rw [Table.edge_iff]
      refine ⟨p.2, ?_⟩
      unfold Table.aliasTo
      rw [hn]
      exact hp
    obtain ⟨ttl, hr⟩ := (h.edge d p.1).mp hedge
    exact List.mem_map.mpr ⟨_, hr, rfl⟩

theorem Holds.not_full (h : Holds now c rs) (hsub : ∀ r ∈ rs, r ∈ all)
    (hroom : (all.map Record.owner).dedup.length ≤ c.maxDomains) {d : Bytes}
    (hd : d ∈ all.map Record.owner) : ¬ c.Full d := by
  rintro ⟨hnone, hfull⟩
  have hnew : d ∉ (Lib.Chained.nodes c.dom).map DomainNode.domain := fun hmem => by
    obtain ⟨n, hn, rfl⟩ := List.mem_map.mp hmem
    have hfind : c.domFind n.domain = some n := h.inv.dom.mem_nodes_iff.mp hn
    rw [hnone] at hfind
    cases hfind
  have hsubset : d :: (Lib.Chained.nodes c.dom).map DomainNode.domain ⊆
      (all.map Record.owner).dedup := by
    intro x hx
    rw [List.mem_dedup]
    rcases List.mem_cons.mp hx with rfl | hx
    · exact hd
    · obtain ⟨n, hn, rfl⟩ := List.mem_map.mp hx
      obtain ⟨r, hr, ho⟩ := List.mem_map.mp (h.owner_of_domFind (h.inv.dom.mem_nodes_iff.mp hn))
      exact List.mem_map.mpr ⟨r, hsub r hr, ho⟩
  have hlen := (List.subperm_of_subset (List.nodup_cons.mpr ⟨hnew, h.inv.dom.nodup_nodes⟩)
    hsubset).length_le
  rw [List.length_cons, List.length_map, ← h.inv.counted] at hlen
  omega

theorem Holds.step (h : Holds now c rs) {r : Record} (ho : Orderly (rs ++ [r]))
    (hroom : ¬ c.Full r.owner) : Holds now (cacheRecord c now r) (rs ++ [r]) := by
  have hinv := inv_cacheRecord h.inv now r
  have hlive : now < now + (r.ttl.toNat : Int) := by
    have hne := ho.live r (by simp)
    have : r.ttl.toNat ≠ 0 := fun h0 => hne (UInt32.toNat_inj.mp h0)
    omega
  cases r with
  | addr o ip ttl =>
    obtain ⟨halias, -, hput⟩ := h.inv.addAddress_views o ip ttl now
    have haddrs := hput hroom
    have hmem : ∀ b, b ∈ Table.putAddr (c.addrsOf o) ⟨ip, now + ttl.toNat⟩ ↔ _ := fun b =>
      Table.mem_putAddr (h.inv.nodup_addrsOf o)
    refine ⟨hinv, fun d t => ?_, fun d t dl hd => ?_, fun d ip' => ?_, fun d a ha => ?_⟩
    · rw [cname_append, ← h.edge, Table.edge_iff, Table.edge_iff]
      show (∃ dl, (c.addAddress o ip ttl now).aliasTo d = _) ↔ _
      rw [halias]
      simp
    · exact h.aliasLive d t dl (by rw [← halias]; exact hd)
    · rw [hasAddr_append, ← h.addrs]
      show (∃ a ∈ (c.addAddress o ip ttl now).addrsOf d, _) ↔ _
      rw [haddrs]
      by_cases hd : d = o
      · subst hd
        rw [Function.update_self]
        simp only [hmem]
        constructor
        · rintro ⟨a, rfl | ⟨ha, -⟩, rfl⟩
          · exact .inr ⟨ttl, rfl⟩
          · exact .inl ⟨a, ha, rfl⟩
        · rintro (⟨a, ha, rfl⟩ | ⟨ttl', he⟩)
          · by_cases hip : a.addr = ip
            · exact ⟨_, .inl rfl, hip.symm⟩
            · exact ⟨a, .inr ⟨ha, hip⟩, rfl⟩
          · cases he
            exact ⟨_, .inl rfl, rfl⟩
      · rw [Function.update_of_ne hd]
        have hno : ¬ ∃ ttl', Record.addr o ip ttl = .addr d ip' ttl' := by
          rintro ⟨ttl', he⟩
          cases he
          exact hd rfl
        rw [or_iff_left hno]
    · change a ∈ (c.addAddress o ip ttl now).addrsOf d at ha
      rw [haddrs] at ha
      by_cases hd : d = o
      · subst hd
        rw [Function.update_self, hmem] at ha
        rcases ha with rfl | ⟨ha, -⟩
        · exact hlive
        · exact h.addrsLive d a ha
      · rw [Function.update_of_ne hd] at ha
        exact h.addrsLive d a ha
  | cname o t ttl =>
    obtain ⟨haddrs, -, hput⟩ := h.inv.addAlias_views o t ttl now
    have hne : o ≠ t := ho.ne ⟨ttl, by simp⟩
    have halias := hput hne hroom
    refine ⟨hinv, fun d t' => ?_, fun d t' dl hd => ?_, fun d ip => ?_, fun d a ha => ?_⟩
    · rw [cname_append, ← h.edge, Table.edge_iff, Table.edge_iff]
      show (∃ dl, (c.addAlias o t ttl now).aliasTo d = _) ↔ _
      rw [halias]
      by_cases hd : d = o
      · subst hd
        rw [Function.update_self]
        constructor
        · rintro ⟨dl, he⟩
          cases he
          exact .inr ⟨ttl, rfl⟩
        · rintro (⟨dl, he⟩ | ⟨ttl', he⟩)
          · -- an earlier CNAME of the name has the same target
            have hold : Cname (rs ++ [.cname d t ttl]) d t' :=
              cname_append.mpr (.inl ((h.edge d t').mp (Table.edge_iff.mpr ⟨dl, he⟩)))
            rw [ho.oneAlias d t' t hold ⟨ttl, by simp⟩]
            exact ⟨_, rfl⟩
          · cases he
            exact ⟨_, rfl⟩
      · rw [Function.update_of_ne hd]
        have hno : ¬ ∃ ttl', Record.cname o t ttl = .cname d t' ttl' := by
          rintro ⟨ttl', he⟩
          cases he
          exact hd rfl
        rw [or_iff_left hno]
    · change (c.addAlias o t ttl now).aliasTo d = _ at hd
      rw [halias] at hd
      by_cases hdo : d = o
      · subst hdo
        rw [Function.update_self] at hd
        cases hd
        exact hlive
      · rw [Function.update_of_ne hdo] at hd
        exact h.aliasLive d t' dl hd
    · rw [hasAddr_append, ← h.addrs]
      show (∃ a ∈ (c.addAlias o t ttl now).addrsOf d, _) ↔ _
      rw [haddrs]
      simp
    · change a ∈ (c.addAlias o t ttl now).addrsOf d at ha
      rw [haddrs] at ha
      exact h.addrsLive d a ha

/-! ## What each record reports -/

/-- Everything the chain of a name leads to is found from it. -/
theorem Holds.exists_mem_getAddresses_iff (h : Holds now c rs) (ho : Orderly rs) {d ip : Bytes} :
    (∃ a ∈ cacheGetAddresses c.cache d now, a.addr = ip) ↔
      ∃ o, ReflTransGen (Cname rs) d o ∧ HasAddr rs o ip := by
  constructor
  · rintro ⟨a, ha, rfl⟩
    obtain ⟨path, hl, -⟩ := leadsTo_of_mem_cacheGetAddresses ha
    have hchain : List.IsChain (Cname rs) (d :: path) := hl.chain.imp fun x y hxy => by
      obtain ⟨dl, hdl, -⟩ := h.inv.liveEdge_cache.mp hxy
      exact (h.edge x y).mp (Table.edge_iff.mpr ⟨dl, hdl⟩)
    have hlive := hl.live
    rw [h.inv.liveAddrs_cache] at hlive
    exact ⟨_, List.relationReflTransGen_of_exists_isChain_cons path hchain rfl,
      (h.addrs _ _).mp ⟨a, (List.mem_filter.mp hlive).1, rfl⟩⟩
  · rintro ⟨o, hreach, hip⟩
    obtain ⟨path, hchain, hlast⟩ := List.exists_isChain_cons_of_relationReflTransGen hreach
    obtain ⟨hnodup, hlen⟩ := ho.short _ hchain
    obtain ⟨a, ha, rfl⟩ := (h.addrs o ip).mpr hip
    have hlive : a ∈ liveAddrs c.cache now o := by
      rw [h.inv.liveAddrs_cache]
      exact List.mem_filter.mpr ⟨ha, by simpa using h.addrsLive o a ha⟩
    have hchain' : List.IsChain (LiveEdge c.cache now) (d :: path) := hchain.imp fun x y hxy => by
      obtain ⟨dl, hdl⟩ := Table.edge_iff.mp ((h.edge x y).mpr hxy)
      exact h.inv.liveEdge_cache.mpr ⟨dl, hdl, h.aliasLive x y dl hdl⟩
    refine ⟨a, mem_cacheGetAddresses ⟨hchain', hnodup, hlast ▸ hlive⟩ ?_ fun x hx => ?_, rfl⟩
    · rw [List.length_cons] at hlen
      unfold maxSeen
      omega
    · -- a name before the end has a CNAME, so it has no address
      obtain ⟨y, hxy⟩ := exists_edge_of_mem_dropLast hchain hx
      rw [h.inv.liveAddrs_cache, List.filter_eq_nil_iff]
      intro b hb
      exact absurd ((h.addrs x b.addr).mp ⟨b, hb, rfl⟩) (ho.notBoth x y b.addr hxy)

/-- A path either was there before a CNAME came, or goes through its owner. -/
theorem reflTransGen_append_cname {d t : Bytes} {ttl : UInt32} {n o : Bytes}
    (h : ReflTransGen (Cname (rs ++ [.cname d t ttl])) n o) :
    ReflTransGen (Cname rs) n o ∨ ReflTransGen (Cname (rs ++ [.cname d t ttl])) n d ∧
      ReflTransGen (Cname (rs ++ [.cname d t ttl])) d o := by
  induction h using ReflTransGen.head_induction_on with
  | refl => exact .inl .refl
  | head hxy hrest ih =>
    rcases cname_append.mp hxy with hold | ⟨ttl', he⟩
    · rcases ih with hpath | ⟨hto, hfrom⟩
      · exact .inl (.head hold hpath)
      · exact .inr ⟨.head hxy hto, hfrom⟩
    · cases he
      exact .inr ⟨.refl, .head hxy hrest⟩

def Emitted (acts : List Action) (id : Id) (ip : Bytes) : Prop :=
  ∃ act ∈ acts, act.groupId = id ∧ act.addr = ip

/-- **One record** reports what it adds to the pairs the records stand for. -/
theorem Holds.wanted_append (s : Settings) {r : Record} (h : Holds now c (rs ++ [r]))
    (ho : Orderly (rs ++ [r])) (id : Id) (ip : Bytes) :
    Wanted (rs ++ [r]) s id ip ↔ Wanted rs s id ip ∨ Emitted (report s c now r) id ip := by
  have hedge : c.Edge = Cname (rs ++ [r]) := funext fun d => funext fun t => propext (h.edge d t)
  have hmono : Wanted rs s id ip → Wanted (rs ++ [r]) s id ip := by
    rintro ⟨g, hg, hid, n, o, hn, hreach, ttl, hip⟩
    exact ⟨g, hg, hid, n, o, hn, ReflTransGen.mono (fun _ _ hc => cname_append.mpr (.inl hc)) _ _
      hreach, ttl, List.mem_append_left _ hip⟩
  cases r with
  | addr o' ip' ttl =>
    constructor
    · rintro ⟨g, hg, hid, n, o, hn, hreach, hip⟩
      rcases hasAddr_append.mp hip with hold | ⟨ttl', he⟩
      · refine .inl ⟨g, hg, hid, n, o, hn, ReflTransGen.mono (fun d t hc => ?_) _ _ hreach, hold⟩
        exact (cname_append.mp hc).resolve_right fun ⟨_, he⟩ => (nomatch he)
      · cases he
        exact .inr ⟨_, (mem_report_addr h.inv).mpr ⟨g, hg, ⟨n, hedge ▸ hreach, hn⟩, rfl⟩, hid, rfl⟩
    · rintro (hold | ⟨act, hact, hid, hip⟩)
      · exact hmono hold
      · obtain ⟨g, hg, ⟨n, hreach, hn⟩, rfl⟩ := (mem_report_addr h.inv).mp hact
        exact ⟨g, hg, hid, n, o', hn, hedge ▸ hreach, hasAddr_append.mpr (.inr ⟨ttl, by rw [← hip]⟩)⟩
  | cname d t ttl =>
    constructor
    · rintro ⟨g, hg, hid, n, o, hn, hreach, hip⟩
      rcases reflTransGen_append_cname hreach with hpath | ⟨hto, hfrom⟩
      · exact .inl ⟨g, hg, hid, n, o, hn, hpath,
          (hasAddr_append.mp hip).resolve_right fun ⟨_, he⟩ => (nomatch he)⟩
      · obtain ⟨a, ha, haddr⟩ := (h.exists_mem_getAddresses_iff ho).mpr ⟨o, hfrom, hip⟩
        exact .inr ⟨_, (mem_report_cname h.inv).mpr ⟨g, hg, ⟨n, hedge ▸ hto, hn⟩, a, ha, rfl⟩, hid,
          haddr⟩
    · rintro (hold | ⟨act, hact, hid, hip⟩)
      · exact hmono hold
      · obtain ⟨g, hg, ⟨n, hto, hn⟩, a, ha, rfl⟩ := (mem_report_cname h.inv).mp hact
        obtain ⟨o, hfrom, haddr⟩ := (h.exists_mem_getAddresses_iff ho).mp ⟨a, ha, hip⟩
        exact ⟨g, hg, hid, n, o, hn, (hedge ▸ hto).trans hfrom, haddr⟩

theorem maxDomains_cacheRecord (c : Table) (now : Int) (r : Record) :
    (cacheRecord c now r).maxDomains = c.maxDomains := by
  cases r with
  | addr o ip ttl => exact c.maxDomains_addAddress o ip ttl now
  | cname d t ttl => exact c.maxDomains_addAlias d t ttl now

/-- All records together report the pairs they stand for. -/
theorem Holds.emitted_reports (s : Settings) (h : Holds now c rs) (rest : List Record)
    (ho : Orderly (rs ++ rest))
    (hroom : ((rs ++ rest).map Record.owner).dedup.length ≤ c.maxDomains) (id : Id) (ip : Bytes) :
    Wanted rs s id ip ∨ Emitted (reports s now c rest) id ip ↔ Wanted (rs ++ rest) s id ip := by
  induction rest generalizing c rs with
  | nil => simp [Emitted, reports]
  | cons r rest ih =>
    have hassoc : rs ++ r :: rest = rs ++ [r] ++ rest := by simp
    have hfull : ¬ c.Full r.owner := h.not_full (fun x hx => List.mem_append_left _ hx) hroom (by simp)
    rw [hassoc] at ho hroom ⊢
    have ho' : Orderly (rs ++ [r]) := ho.mono fun x hx => List.mem_append_left _ hx
    have hnext := h.step ho' hfull
    rw [← ih hnext ho (maxDomains_cacheRecord c now r ▸ hroom), hnext.wanted_append s ho' id ip,
      or_assoc]
    refine or_congr_right ?_
    simp only [Emitted, reports, List.mem_append, or_and_right, exists_or]

end Order

/-- **The order of the answers does not matter.** Every order of the answers of a response makes the
pipeline, with an empty cache that has room for the names, emit the pairs the response stands
for. -/
theorem emitted_of_perm (s : Settings) (msg : Msg) (now : Int) (maxDomains : Nat)
    (hrcode : msg.flags &&& 0x000f = 0) (ho : Orderly (msg.answers.filterMap (decode s)))
    (hroom : ((msg.answers.filterMap (decode s)).map Record.owner).dedup.length ≤
      (Table.create maxDomains).maxDomains)
    {answers : List Rr} (hperm : answers.Perm msg.answers) (id : Id) (ip : Bytes) :
    Emitted (handleMessage s (Table.create maxDomains) { msg with answers } now).2 id ip ↔
      Wanted (msg.answers.filterMap (decode s)) s id ip := by
  have hrecords := hperm.filterMap (decode s)
  have hmem : ∀ r, r ∈ answers.filterMap (decode s) ↔ r ∈ msg.answers.filterMap (decode s) :=
    fun r => hrecords.mem_iff
  have hwanted : Wanted (answers.filterMap (decode s)) s id ip ↔
      Wanted (msg.answers.filterMap (decode s)) s id ip := by
    have hc : Cname (answers.filterMap (decode s)) = Cname (msg.answers.filterMap (decode s)) :=
      funext fun d => funext fun t => propext (exists_congr fun ttl => hmem _)
    have ha : HasAddr (answers.filterMap (decode s)) =
        HasAddr (msg.answers.filterMap (decode s)) :=
      funext fun d => funext fun t => propext (exists_congr fun ttl => hmem _)
    unfold Wanted
    rw [hc, ha]
  have hempty : ¬ Wanted [] s id ip := by
    rintro ⟨g, -, -, n, o, -, -, ttl, h⟩
    cases h
  have hlen : ((msg.answers.filterMap (decode s)).map Record.owner).dedup.length =
      ((answers.filterMap (decode s)).map Record.owner).dedup.length :=
    (hrecords.map Record.owner).dedup.length_eq.symm
  have hrun := (holds_create now maxDomains).emitted_reports s (answers.filterMap (decode s))
    (ho.mono fun r hr => (hmem r).mp hr) (hlen ▸ hroom) id ip
  rw [or_iff_right hempty, List.nil_append] at hrun
  unfold handleMessage
  rw [if_neg (not_not.mpr hrcode), handleRecords_eq, ← hwanted]
  exact hrun

/-- One group, for the name `a`. -/
def groupOfA : Settings where
  additionalTtl := 0
  snapshot := [⟨⟨1, 0, 0, 0⟩, str "group", matcherOf [(str "domain", str "a")]⟩]
  rx := fun _ _ => false

/-- `a` is an alias of `b`, which has an address. -/
def aliasResponse : Msg where
  id := 0
  flags := 0x8180
  questions := []
  answers :=
    [⟨[1, 97, 0], typeCname, 1, 60, [1, 98, 0]⟩, ⟨[1, 98, 0], typeA, 1, 60, [1, 2, 3, 4]⟩]
  authority := []
  additional := []

theorem decode_aliasResponse : aliasResponse.answers.filterMap (decode groupOfA) =
    [.cname (str "a") (str "b") 60, .addr (str "b") [1, 2, 3, 4] 60] := by
  decide +kernel

theorem orderly_aliasResponse :
    Orderly [.cname (str "a") (str "b") 60, .addr (str "b") [1, 2, 3, 4] 60] := by
  have hab : str "a" ≠ str "b" := by decide
  have hc : ∀ d t, Cname [.cname (str "a") (str "b") 60, .addr (str "b") [1, 2, 3, 4] 60] d t →
      d = str "a" ∧ t = str "b" := by
    rintro d t ⟨ttl, h⟩
    simp only [List.mem_cons, List.not_mem_nil, or_false, reduceCtorEq, Record.cname.injEq] at h
    exact ⟨h.1, h.2.1⟩
  refine ⟨by decide, fun d t t' h h' => ?_, fun d t ip h => ?_, fun path h => ?_⟩
  · rw [(hc d t h).2, (hc d t' h').2]
  · rintro ⟨ttl, hip⟩
    simp only [List.mem_cons, List.not_mem_nil, or_false, reduceCtorEq, false_or,
      Record.addr.injEq] at hip
    exact hab ((hc d t h).1.symm.trans hip.1)
  · match path, h with
    | [], _ => exact ⟨List.nodup_nil, by decide⟩
    | [x], _ => exact ⟨List.nodup_singleton x, Nat.one_lt_ofNat⟩
    | [x, y], h =>
      obtain ⟨rfl, rfl⟩ := hc x y (List.isChain_cons_cons.mp h).1
      exact ⟨by decide, by decide⟩
    | x :: y :: z :: _, h =>
      obtain ⟨hxy, h⟩ := List.isChain_cons_cons.mp h
      have hyz := (List.isChain_cons_cons.mp h).1
      exact absurd ((hc y z hyz).1.symm.trans (hc x y hxy).2) hab

/-- With the address first the pair is found as well. -/
theorem emitted_of_perm_alias :
    Emitted (handleMessage groupOfA (Table.create 0)
      { aliasResponse with answers := aliasResponse.answers.reverse } 1000).2
      ⟨1, 0, 0, 0⟩ [1, 2, 3, 4] := by
  refine (emitted_of_perm groupOfA aliasResponse 1000 0 (by decide) ?_ ?_
    (List.reverse_perm _) _ _).mpr ?_
  · rw [decode_aliasResponse]
    exact orderly_aliasResponse
  · rw [decode_aliasResponse]
    decide
  · rw [decode_aliasResponse]
    refine ⟨_, List.mem_singleton_self _, rfl, str "a", str "b", by decide, .single ⟨60, ?_⟩,
      ⟨60, ?_⟩⟩
    · simp
    · simp

end MagiTrickle.Pipeline
