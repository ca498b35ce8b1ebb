import MagiTrickle.Dns.Pipeline
import MagiTrickle.DnsCache.Cleanup
import MagiTrickle.DnsCache.Lookups

/-!
# Lifetimes of records

The daemon casts the configured duration to 32-bit seconds, and the pipeline adds
them to the TTL of a record in 32 bits. The sum is right as long as it fits; from
2 ^ 32 on it starts again at zero, and a negative duration is taken for a large
one. A CNAME record sends the time left of the addresses behind it.
-/

namespace MagiTrickle.DnsCache.Table

def Op.time : Op → Int
  | .addAddress _ _ _ now | .addAlias _ _ _ now | .cleanup now => now

/-- No address lives longer than a TTL of 32 bits allows. -/
def Bounded (c : Table) (now : Int) : Prop :=
  ∀ d, ∀ a ∈ c.addrsOf d, a.deadline ≤ now + (2 ^ 32 - 1)

theorem bounded_step {c : Table} (h : c.Inv) {now : Int} (hb : c.Bounded now) {op : Op}
    (hop : op.time ≤ now) : (c.step op).Bounded now := by
  intro d a ha
  cases op with
  | addAddress domain addr ttl t =>
    have ht : t ≤ now := hop
    obtain ⟨-, hfull, hroom⟩ := h.addAddress_views domain addr ttl t
    change a ∈ (c.addAddress domain addr ttl t).addrsOf d at ha
    by_cases hf : c.Full domain
    · rw [hfull hf] at ha
      exact hb d a ha
    · rw [hroom hf] at ha
      by_cases hd : d = domain
      · rw [hd, Function.update_self, mem_putAddr (h.nodup_addrsOf domain)] at ha
        rcases ha with rfl | ⟨ha, -⟩
        · have hlt := ttl.toNat_lt
          show t + (ttl.toNat : Int) ≤ _
          omega
        · exact hb domain a ha
      · rw [Function.update_of_ne hd] at ha
        exact hb d a ha
  | addAlias domain target ttl t =>
    change a ∈ (c.addAlias domain target ttl t).addrsOf d at ha
    rw [(h.addAlias_views domain target ttl t).1] at ha
    exact hb d a ha
  | cleanup t =>
    change a ∈ (c.cleanup t).addrsOf d at ha
    rw [h.addrsOf_cleanup t d] at ha
    exact hb d a (List.mem_filter.mp ha).1

theorem bounded_run {c : Table} (h : c.Inv) {now : Int} (hb : c.Bounded now) {ops : List Op}
    (hops : ∀ op ∈ ops, op.time ≤ now) : (c.run ops).Bounded now := by
  induction ops generalizing c with
  | nil => exact hb
  | cons op ops ih =>
    exact ih (h.step op) (bounded_step h hb (hops op List.mem_cons_self))
      fun op' hop' => hops op' (List.mem_cons_of_mem _ hop')

theorem Bounded.firstLive {c : Table} {now : Int} (hb : c.Bounded now) {names : List Bytes}
    {a : CacheAddr} (ha : a ∈ DnsCache.firstLive (c.validAddrs now) names) :
    a.deadline ≤ now + (2 ^ 32 - 1) := by
  unfold DnsCache.firstLive at ha
  cases hfind : (names.map (c.validAddrs now)).find? (· ≠ []) with
  | none =>
    rw [hfind] at ha
    cases ha
  | some valid =>
    rw [hfind, Option.getD_some] at ha
    obtain ⟨d, -, rfl⟩ := List.mem_map.mp (List.mem_of_find?_eq_some hfind)
    exact hb d a (List.mem_filter.mp ha).1

end MagiTrickle.DnsCache.Table

namespace MagiTrickle.Pipeline

open MagiTrickle.DnsCache MagiTrickle.Dns.Wire MagiTrickle.Rules

/-- `MT_DURATION_SEC`, in nanoseconds. -/
def durationSec : Int := 1000000000

def seconds (duration : Int) : Int := duration.tdiv durationSec

/-- The cast of `main` and `reload_config` for `mt_dns_pipeline_create` and
`mt_dns_pipeline_set_additional_ttl`. -/
def additionalTtl (duration : Int) : UInt32 := UInt32.ofNat (seconds duration % 2 ^ 32).toNat

/-- A record whose address `mt_dns_pipeline_handle_message` takes. -/
def IsAddress (rr : Rr) : Prop :=
  rr.rtype = typeA ∧ rr.rdata.length = 4 ∨ rr.rtype = typeAaaa ∧ rr.rdata.length = 16

/-- The lifetimes that a record makes the daemon keep or send: of its address or its alias in the
cache, and of the addresses at the sink. -/
inductive Lifetime (s : Settings) (c : Table) (rr : Rr) (now : Int) : Int → Prop
  | address {domain : Bytes} {a : CacheAddr} (kind : IsAddress rr)
      (name : presentation rr.name = some domain) (room : ¬ c.Full domain)
      (mem : a ∈ (handleRecord s c rr now).1.addrsOf domain) (addr : a.addr = rr.rdata) :
      Lifetime s c rr now (a.deadline - now)
  | cname {domain target t : Bytes} {deadline : Int} (kind : rr.rtype = typeCname)
      (name : presentation rr.name = some domain) (rdata : presentation rr.rdata = some target)
      (ne : domain ≠ target) (room : ¬ c.Full domain)
      (aliasTo : (handleRecord s c rr now).1.aliasTo domain = some (t, deadline)) :
      Lifetime s c rr now (deadline - now)
  | sink {act : Action} (mem : act ∈ (handleRecord s c rr now).2) :
      Lifetime s c rr now act.ttl.toNat

/-- The TTL and the additional seconds, or the largest value; and no less than the TTL. -/
def ExactLifetime (ttl : UInt32) (additional lifetime : Int) : Prop :=
  (lifetime = ttl.toNat + additional ∨
      (lifetime = 2 ^ 32 - 1 ∧ 2 ^ 32 - 1 ≤ ttl.toNat + additional)) ∧
    ttl.toNat ≤ lifetime

/-- Nothing is subtracted, and the sum fits into 32 bits or is the largest value up to a multiple of
2 ^ 32. -/
def SumFits (ttl : UInt32) (additional : Int) : Prop :=
  0 ≤ additional ∧
    (ttl.toNat + additional < 2 ^ 32 ∨ (ttl.toNat + additional) % 2 ^ 32 = 2 ^ 32 - 1)

/-- Some group matches a name that leads to the name. -/
def AliasMatch (s : Settings) (c : Table) (domain : Bytes) : Prop :=
  ∃ g ∈ s.snapshot, ∃ n, Relation.ReflTransGen c.Edge n domain ∧ matcherMatch s.rx g.matcher n

/-- The record's own lifetime is kept or sent: there is room for its name, or its address goes to
the sink. -/
def Own (s : Settings) (c : Table) (rr : Rr) : Prop :=
  ∃ domain, presentation rr.name = some domain ∧
    (IsAddress rr ∧ (¬ c.Full domain ∨ AliasMatch s c domain) ∨
      rr.rtype = typeCname ∧ ¬ c.Full domain ∧
        ∃ target, presentation rr.rdata = some target ∧ domain ≠ target)

/-- The unexpired aliases, with the record's in the place of the one its name had. -/
def NextWith (s : Settings) (c : Table) (rr : Rr) (domain target : Bytes) (now : Int)
    (d t : Bytes) : Prop :=
  if d = domain ∧ domain ≠ target ∧ ¬ c.Full domain then
    t = target ∧ 0 < (rr.ttl + s.additionalTtl).toNat
  else c.ValidEdge now d t

/-- The addresses behind a CNAME record that a group wants: of the first name that has unexpired
ones, on the walk from the record's name. -/
def Behind (s : Settings) (c : Table) (rr : Rr) (now : Int) (a : CacheAddr) : Prop :=
  ∃ domain target path, rr.rtype = typeCname ∧ presentation rr.name = some domain ∧
    presentation rr.rdata = some target ∧ AliasMatch s c domain ∧
    Walk (NextWith s c rr domain target now) [domain] domain path ∧
    a ∈ firstLive (c.validAddrs now) (path.take 64)

/-- The address ends when a record with the TTL does, the additional seconds included. -/
def EndsWith (ttl : UInt32) (additional now : Int) (a : CacheAddr) : Prop :=
  0 ≤ additional ∧ a.deadline = now + min (ttl.toNat + additional) (2 ^ 32 - 1)

/-! ## The sum -/

theorem toNat_sum (ttl : UInt32) (duration : Int) :
    ((ttl + additionalTtl duration).toNat : Int) = (ttl.toNat + seconds duration) % 2 ^ 32 := by
  have hadd : (additionalTtl duration).toNat = (seconds duration % 2 ^ 32).toNat := by
    have hlt : (seconds duration % 2 ^ 32).toNat < 2 ^ 32 := by omega
    exact UInt32.toNat_ofNat_of_lt' hlt
  rw [UInt32.toNat_add, hadd]
  omega

theorem exactLifetime_iff (ttl : UInt32) (additional : Int) :
    ExactLifetime ttl additional ((ttl.toNat + additional) % 2 ^ 32) ↔ SumFits ttl additional := by
  have hlt := ttl.toNat_lt
  unfold ExactLifetime SumFits
  omega

theorem exactLifetime_iff_endsWith {ttl : UInt32} {additional now : Int} {a : CacheAddr}
    (h : a.deadline ≤ now + (2 ^ 32 - 1)) :
    ExactLifetime ttl additional (a.deadline - now) ↔ EndsWith ttl additional now a := by
  have hlt := ttl.toNat_lt
  unfold ExactLifetime EndsWith
  omega

/-! ## What a record leaves and sends -/

section Handled

variable {s : Settings} {c : Table} {rr : Rr} {now : Int} {domain target : Bytes}

/-- Which names lead to a name does not depend on its own successors. -/
theorem reflTransGen_iff {α : Type} {E E' : α → α → Prop} {d : α}
    (h : ∀ x y, x ≠ d → (E x y ↔ E' x y)) (x : α) :
    Relation.ReflTransGen E x d ↔ Relation.ReflTransGen E' x d := by
  have himp : ∀ {E E' : α → α → Prop}, (∀ x y, x ≠ d → (E x y ↔ E' x y)) →
      Relation.ReflTransGen E x d → Relation.ReflTransGen E' x d := by
    intro E E' h hx
    induction hx using Relation.ReflTransGen.head_induction_on with
    | refl => exact .refl
    | @head x y hxy _ ih =>
      by_cases hd : x = d
      · exact hd ▸ .refl
      · exact ih.head ((h x y hd).mp hxy)
  exact ⟨himp h, himp fun x y hne => (h x y hne).symm⟩

theorem exists_anyMatch_iff {c' : Table} (h' : c'.Inv)
    (halias : ∀ d, d ≠ domain → c'.aliasTo d = c.aliasTo d) :
    (∃ g ∈ s.snapshot, anyMatch s g (c'.getAliases domain)) ↔ AliasMatch s c domain := by
  have hedge : ∀ x y, x ≠ domain → (c'.Edge x y ↔ c.Edge x y) := by
    intro x y hne
    rw [Table.edge_iff, Table.edge_iff, halias x hne]
  refine exists_congr fun g => and_congr_right fun _ => ?_
  unfold anyMatch
  rw [List.any_eq_true]
  exact exists_congr fun n => and_congr_left fun _ =>
    h'.mem_getAliases.trans (reflTransGen_iff hedge n)

theorem handleRecord_address (hkind : IsAddress rr) (hname : presentation rr.name = some domain) :
    handleRecord s c rr now =
      let c' := c.addAddress domain rr.rdata (rr.ttl + s.additionalTtl) now
      (c', (s.snapshot.filter fun g => anyMatch s g (c'.getAliases domain)).map fun g =>
        ⟨g.id, rr.rdata, rr.ttl + s.additionalTtl⟩) := by
  rcases hkind with ⟨htype, hlen⟩ | ⟨htype, hlen⟩
  · rw [handleRecord, if_pos htype, handleAddressRecord, if_neg (not_not_intro hlen), hname]
  · have hother : ¬rr.rtype = typeA := by
      rw [htype]
      decide
    rw [handleRecord, if_neg hother, if_pos htype, handleAddressRecord,
      if_neg (not_not_intro hlen), hname]

theorem handleRecord_cname (htype : rr.rtype = typeCname) :
    handleRecord s c rr now = handleCnameRecord s c rr now := by
  have ha : ¬rr.rtype = typeA := by
    rw [htype]
    decide
  have haaaa : ¬rr.rtype = typeAaaa := by
    rw [htype]
    decide
  rw [handleRecord, if_neg ha, if_neg haaaa, if_pos htype]

theorem kind_of_mem_handleRecord {act : Action} (h : act ∈ (handleRecord s c rr now).2) :
    (IsAddress rr ∧ ∃ domain, presentation rr.name = some domain) ∨
      rr.rtype = typeCname ∧ ∃ domain target, presentation rr.name = some domain ∧
        presentation rr.rdata = some target := by
  have haddr : ∀ {len : Nat}, act ∈ (handleAddressRecord s c rr len now).2 →
      rr.rdata.length = len ∧ ∃ domain, presentation rr.name = some domain := by
    intro len h
    unfold handleAddressRecord at h
    split at h
    · cases h
    · next hlen =>
      split at h
      · cases h
      · next domain hname => exact ⟨not_not.mp hlen, domain, hname⟩
  unfold handleRecord at h
  split at h
  · next htype => exact .inl ⟨.inl ⟨htype, (haddr h).1⟩, (haddr h).2⟩
  · split at h
    · next htype => exact .inl ⟨.inr ⟨htype, (haddr h).1⟩, (haddr h).2⟩
    · split at h
      · next htype =>
        refine .inr ⟨htype, ?_⟩
        unfold handleCnameRecord at h
        split at h
        · next domain target hname hrdata => exact ⟨domain, target, hname, hrdata⟩
        · cases h
      · cases h

theorem validEdge_addAlias (h : c.Inv) (d t : Bytes) :
    (c.addAlias domain target (rr.ttl + s.additionalTtl) now).ValidEdge now d t ↔
      NextWith s c rr domain target now d t := by
  obtain ⟨-, hkept, hnew⟩ := h.addAlias_views domain target (rr.ttl + s.additionalTtl) now
  unfold Table.ValidEdge NextWith
  by_cases hstored : domain ≠ target ∧ ¬ c.Full domain
  · rw [hnew hstored.1 hstored.2]
    by_cases hd : d = domain
    · rw [if_pos ⟨hd, hstored⟩, hd, Function.update_self]
      constructor
      · rintro ⟨deadline, heq, hlt⟩
        cases heq
        exact ⟨rfl, by omega⟩
      · rintro ⟨rfl, hpos⟩
        exact ⟨_, rfl, by omega⟩
    · rw [if_neg fun hall => hd hall.1, Function.update_of_ne hd]
      rfl
  · rw [hkept (or_iff_not_and_not.mpr fun hno => hstored ⟨hno.1, hno.2⟩),
      if_neg fun hall => hstored hall.2]
    rfl

theorem behind_iff (h : c.Inv) (htype : rr.rtype = typeCname)
    (hname : presentation rr.name = some domain) (hrdata : presentation rr.rdata = some target)
    (a : CacheAddr) :
    Behind s c rr now a ↔ AliasMatch s c domain ∧
      a ∈ cacheGetAddresses
        (c.addAlias domain target (rr.ttl + s.additionalTtl) now).cache domain now := by
  have hinv := h.addAlias domain target (rr.ttl + s.additionalTtl) now
  obtain ⟨path, hwalk, hunique, haddrs⟩ := hinv.getAddresses_exact domain now
  have hedge : (c.addAlias domain target (rr.ttl + s.additionalTtl) now).ValidEdge now =
      NextWith s c rr domain target now := by
    funext d t
    exact propext (validEdge_addAlias h d t)
  have hvalid : (c.addAlias domain target (rr.ttl + s.additionalTtl) now).validAddrs now =
      c.validAddrs now := by
    unfold Table.validAddrs
    rw [(h.addAlias_views domain target _ now).1]
  rw [hedge] at hwalk hunique
  rw [haddrs, hvalid]
  constructor
  · rintro ⟨domain', target', path', -, hname', hrdata', hwanted, hwalk', ha⟩
    cases hname.symm.trans hname'
    cases hrdata.symm.trans hrdata'
    exact ⟨hwanted, hunique path' hwalk' ▸ ha⟩
  · rintro ⟨hwanted, ha⟩
    exact ⟨domain, target, path, htype, hname, hrdata, hwanted, hwalk, ha⟩

theorem aliasTo_addAlias_of_ne (h : c.Inv) {ttl : UInt32} {d : Bytes} (hne : d ≠ domain) :
    (c.addAlias domain target ttl now).aliasTo d = c.aliasTo d := by
  obtain ⟨-, hkept, hnew⟩ := h.addAlias_views domain target ttl now
  by_cases hstored : domain = target ∨ c.Full domain
  · rw [hkept hstored]
  · obtain ⟨hself, hroom⟩ := not_or.mp hstored
    rw [hnew hself hroom, Function.update_of_ne hne]

/-- What a CNAME record sends is the time that is left of the addresses behind it. -/
theorem ttl_handleCnameRecord_iff (h : c.Inv) (hb : c.Bounded now) (htype : rr.rtype = typeCname)
    (hname : presentation rr.name = some domain) (hrdata : presentation rr.rdata = some target)
    (lifetime : Int) :
    (∃ act ∈ (handleRecord s c rr now).2, lifetime = act.ttl.toNat) ↔
      ∃ a, Behind s c rr now a ∧ a.deadline ≤ now + (2 ^ 32 - 1) ∧ lifetime = a.deadline - now := by
  have hinv := h.addAlias domain target (rr.ttl + s.additionalTtl) now
  have hbound : ∀ a ∈ cacheGetAddresses
      (c.addAlias domain target (rr.ttl + s.additionalTtl) now).cache domain now,
      now < a.deadline ∧ a.deadline ≤ now + (2 ^ 32 - 1) := by
    intro a ha
    obtain ⟨path, hl, -⟩ := leadsTo_of_mem_cacheGetAddresses ha
    have hlive := hl.live
    rw [hinv.liveAddrs_cache] at hlive
    have hmem := (List.mem_filter.mp hlive).1
    rw [(h.addAlias_views domain target _ now).1] at hmem
    exact ⟨deadline_of_mem_cacheGetAddresses ha, hb _ a hmem⟩
  have hleft : ∀ a : CacheAddr, now < a.deadline → a.deadline ≤ now + (2 ^ 32 - 1) →
      ((UInt32.ofNat (a.deadline - now).toNat).toNat : Int) = a.deadline - now := by
    intro a hpos hle
    rw [UInt32.toNat_ofNat_of_lt' (show (a.deadline - now).toNat < 2 ^ 32 by omega)]
    omega
  simp only [behind_iff h htype hname hrdata, ← exists_anyMatch_iff hinv
    fun d hne => aliasTo_addAlias_of_ne h hne]
  rw [handleRecord_cname htype, handleCnameRecord, hname, hrdata]
  constructor
  · rintro ⟨act, hact, rfl⟩
    obtain ⟨g, hg, hact⟩ := List.mem_flatMap.mp hact
    obtain ⟨a, ha, rfl⟩ := List.mem_map.mp hact
    have ha := (List.mem_filter.mp ha).1
    obtain ⟨hmem, hmatch⟩ := List.mem_filter.mp hg
    obtain ⟨hpos, hle⟩ := hbound a ha
    exact ⟨a, ⟨⟨g, hmem, hmatch⟩, ha⟩, hle, hleft a hpos hle⟩
  · rintro ⟨a, ⟨⟨g, hmem, hmatch⟩, ha⟩, hle, rfl⟩
    have hpos := (hbound a ha).1
    refine ⟨⟨g.id, a.addr, UInt32.ofNat (a.deadline - now).toNat⟩, ?_, (hleft a hpos hle).symm⟩
    exact List.mem_flatMap.mpr ⟨g, List.mem_filter.mpr ⟨hmem, hmatch⟩,
      List.mem_map.mpr ⟨a, List.mem_filter.mpr ⟨ha, decide_eq_true (by omega)⟩, rfl⟩⟩

end Handled

/-- A lifetime is the record's own sum, where it has one, or the time left of an address behind. -/
theorem lifetime_iff {s : Settings} {c : Table} (h : c.Inv) {rr : Rr} {now : Int}
    (hb : c.Bounded now) (lifetime : Int) :
    Lifetime s c rr now lifetime ↔
      (Own s c rr ∧ lifetime = (rr.ttl + s.additionalTtl).toNat) ∨
        ∃ a, Behind s c rr now a ∧ a.deadline ≤ now + (2 ^ 32 - 1) ∧
          lifetime = a.deadline - now := by
  constructor
  · intro hl
    cases hl with
    | @address domain a kind name room mem addr =>
      refine .inl ⟨⟨domain, name, .inl ⟨kind, .inl room⟩⟩, ?_⟩
      rw [handleRecord_address kind name] at mem
      dsimp only at mem
      rw [(h.addAddress_views domain rr.rdata _ now).2.2 room, Function.update_self,
        Table.mem_putAddr (h.nodup_addrsOf domain)] at mem
      rcases mem with rfl | ⟨-, hne⟩
      · show now + _ - now = _
        omega
      · exact absurd addr hne
    | @cname domain target t deadline kind name rdata ne room halias =>
      refine .inl ⟨⟨domain, name, .inr ⟨kind, room, target, rdata, ne⟩⟩, ?_⟩
      rw [handleRecord_cname kind, handleCnameRecord, name, rdata] at halias
      dsimp only at halias
      rw [(h.addAlias_views domain target _ now).2.2 ne room, Function.update_self] at halias
      cases halias
      omega
    | @sink act mem =>
      rcases kind_of_mem_handleRecord mem with ⟨kind, domain, name⟩ | ⟨kind, domain, target, name, rdata⟩
      · have hinv := h.addAddress domain rr.rdata (rr.ttl + s.additionalTtl) now
        have halias := (h.addAddress_views domain rr.rdata (rr.ttl + s.additionalTtl) now).1
        rw [handleRecord_address kind name] at mem
        obtain ⟨g, hg, rfl⟩ := List.mem_map.mp mem
        obtain ⟨hmem, hmatch⟩ := List.mem_filter.mp hg
        have hwanted := (exists_anyMatch_iff hinv fun d _ => congrFun halias d).mp ⟨g, hmem, hmatch⟩
        exact .inl ⟨⟨domain, name, .inl ⟨kind, .inr hwanted⟩⟩, rfl⟩
      · exact .inr ((ttl_handleCnameRecord_iff h hb kind name rdata _).mp ⟨act, mem, rfl⟩)
  · rintro (⟨⟨domain, name, hown⟩, rfl⟩ | ⟨a, hbehind, hle, rfl⟩)
    · rcases hown with ⟨kind, hstored⟩ | ⟨kind, room, target, rdata, ne⟩
      · by_cases room : c.Full domain
        · have hinv := h.addAddress domain rr.rdata (rr.ttl + s.additionalTtl) now
          have halias := (h.addAddress_views domain rr.rdata (rr.ttl + s.additionalTtl) now).1
          obtain ⟨g, hmem, hmatch⟩ := (exists_anyMatch_iff hinv fun d _ => congrFun halias d).mpr
            (hstored.resolve_left (not_not_intro room))
          have hact : (⟨g.id, rr.rdata, rr.ttl + s.additionalTtl⟩ : Action) ∈
              (handleRecord s c rr now).2 := by
            rw [handleRecord_address kind name]
            exact List.mem_map.mpr ⟨g, List.mem_filter.mpr ⟨hmem, hmatch⟩, rfl⟩
          exact .sink hact
        · have hmem : (⟨rr.rdata, now + (rr.ttl + s.additionalTtl).toNat⟩ : CacheAddr) ∈
              (handleRecord s c rr now).1.addrsOf domain := by
            rw [handleRecord_address kind name]
            dsimp only
            rw [(h.addAddress_views domain rr.rdata _ now).2.2 room, Function.update_self,
              Table.mem_putAddr (h.nodup_addrsOf domain)]
            exact .inl rfl
          have hl := Lifetime.address kind name room hmem rfl
          rwa [add_sub_cancel_left] at hl
      · have halias : (handleRecord s c rr now).1.aliasTo domain =
            some (target, now + (rr.ttl + s.additionalTtl).toNat) := by
          rw [handleRecord_cname kind, handleCnameRecord, name, rdata]
          dsimp only
          rw [(h.addAlias_views domain target _ now).2.2 ne room, Function.update_self]
        have hl := Lifetime.cname kind name rdata ne room halias
        rwa [add_sub_cancel_left] at hl
    · obtain ⟨domain, target, path, kind, name, rdata, hwanted, hwalk, ha⟩ := hbehind
      obtain ⟨act, hact, heq⟩ := (ttl_handleCnameRecord_iff h hb kind name rdata _).mpr
        ⟨a, ⟨domain, target, path, kind, name, rdata, hwanted, hwalk, ha⟩, hle, rfl⟩
      exact heq ▸ .sink hact

/-- For every TTL and every configured duration: the lifetimes of a record are the TTL and the
additional seconds, and not less than the TTL, exactly if the sum fits and the addresses behind a
CNAME record, whose time left it sends, end with the record. -/
theorem lifetimes_exact_iff (maxDomains : Nat) {ops : List Table.Op} {now : Int}
    (hops : ∀ op ∈ ops, op.time ≤ now) {s : Settings} {duration : Int}
    (hs : s.additionalTtl = additionalTtl duration) (rr : Rr) :
    let c := (Table.create maxDomains).run ops
    (∀ lifetime, Lifetime s c rr now lifetime →
        ExactLifetime rr.ttl (seconds duration) lifetime) ↔
      (Own s c rr → SumFits rr.ttl (seconds duration)) ∧
        ∀ a, Behind s c rr now a → EndsWith rr.ttl (seconds duration) now a := by
  intro c
  have h : c.Inv := (Table.inv_create maxDomains).run ops
  have hempty : (Table.create maxDomains).Bounded now := by
    intro d a ha
    rw [(Table.views_create maxDomains d).1] at ha
    cases ha
  have hb : c.Bounded now := Table.bounded_run (Table.inv_create maxDomains) hempty hops
  have hsum : ExactLifetime rr.ttl (seconds duration) (rr.ttl + s.additionalTtl).toNat ↔
      SumFits rr.ttl (seconds duration) := by
    rw [hs, toNat_sum]
    exact exactLifetime_iff rr.ttl (seconds duration)
  have hbehind : ∀ a, Behind s c rr now a → a.deadline ≤ now + (2 ^ 32 - 1) := by
    rintro a ⟨domain, target, path, -, -, -, -, -, ha⟩
    exact hb.firstLive ha
  constructor
  · intro hall
    refine ⟨fun hown => hsum.mp (hall _ ((lifetime_iff h hb _).mpr (.inl ⟨hown, rfl⟩))),
      fun a ha => ?_⟩
    exact (exactLifetime_iff_endsWith (hbehind a ha)).mp
      (hall _ ((lifetime_iff h hb _).mpr (.inr ⟨a, ha, hbehind a ha, rfl⟩)))
  · rintro ⟨hown, hends⟩ lifetime hl
    rcases (lifetime_iff h hb _).mp hl with ⟨ho, rfl⟩ | ⟨a, ha, hle, rfl⟩
    · exact hsum.mpr (hown ho)
    · exact (exactLifetime_iff_endsWith hle).mpr (hends a ha)

/-- The group with the name `a`, and the default of an hour. -/
def hourMore : Settings where
  additionalTtl := additionalTtl (3600 * durationSec)
  snapshot := [⟨⟨1, 0, 0, 0⟩, str "group", matcherOf [(str "domain", str "a")]⟩]
  rx := fun _ _ => false

/-- An address of the name `b` for an hour and a minute. -/
def addressOfB : List Table.Op := [.addAddress (str "b") [10, 0, 0, 1] 3660 0]

/-- The alias `b` of the name `a`, for a minute. -/
def aliasOfA : Rr := ⟨[1, 97, 0], typeCname, 1, 60, [1, 98, 0]⟩

theorem lifetimes_exact_iff_hour :
    Lifetime hourMore ((Table.create 0).run addressOfB) aliasOfA 0
        ((3660 : UInt32).toNat) ∧
      ∀ lifetime, Lifetime hourMore ((Table.create 0).run addressOfB) aliasOfA 0 lifetime →
        ExactLifetime 60 (seconds (3600 * durationSec)) lifetime := by
  have hsent : (⟨⟨1, 0, 0, 0⟩, [10, 0, 0, 1], 3660⟩ : Action) ∈
      (handleRecord hourMore ((Table.create 0).run addressOfB) aliasOfA 0).2 := by decide +kernel
  refine ⟨.sink hsent, (lifetimes_exact_iff 0 (by decide) rfl aliasOfA).mpr ⟨fun _ => ?_, ?_⟩⟩
  · exact ⟨by decide +kernel, .inl (by decide +kernel)⟩
  · intro a ha
    have hbehind := (behind_iff ((Table.inv_create 0).run addressOfB) rfl
      (show presentation aliasOfA.name = some (str "a") by decide +kernel)
      (show presentation aliasOfA.rdata = some (str "b") by decide +kernel) a).mp ha
    have hall : ∀ a ∈ cacheGetAddresses (((Table.create 0).run addressOfB).addAlias (str "a")
        (str "b") (aliasOfA.ttl + hourMore.additionalTtl) 0).cache (str "a") 0,
        a = ⟨[10, 0, 0, 1], 3660⟩ := by decide +kernel
    rw [hall a hbehind.2]
    exact ⟨by decide +kernel, by decide +kernel⟩

/-- An address record of the name `a`. -/
def addressOfA (ttl : UInt32) : Rr := ⟨[1, 97, 0], typeA, 1, ttl, [10, 0, 0, 1]⟩

/-- The largest TTL and an hour make a lifetime of less than an hour. -/
theorem lifetime_wraps :
    Lifetime hourMore ((Table.create 0).run []) (addressOfA 4294967295) 0 3599 ∧
      ¬ ExactLifetime 4294967295 (seconds (3600 * durationSec)) 3599 := by
  have hl : Lifetime hourMore ((Table.create 0).run []) (addressOfA 4294967295) 0 (3599 - 0) :=
    @Lifetime.address _ _ _ _ (str "a") ⟨[10, 0, 0, 1], 3599⟩ (.inl ⟨rfl, rfl⟩)
      (by decide +kernel) (fun hfull => absurd hfull.2 (by decide +kernel)) (by decide +kernel) rfl
  refine ⟨hl, fun hexact => ?_⟩
  have hle : (4294967295 : UInt32).toNat ≤ (3599 : Int) := hexact.2
  exact absurd hle (by decide)

end MagiTrickle.Pipeline
