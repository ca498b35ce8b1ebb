import MagiTrickle.Netfilter.SyncDiff
import MagiTrickle.Netfilter.Wants

/-!
# When a sync reaches the desired sets

The desired content of a kernel set is stated by `SyncReached`. Since the
requests of a key determine what the sync leaves under it (`lookup_sync`), the
sync reaches that content exactly when every cached host meets `HostSettled`: a
host already in the set is added again without its prefix length and then
deleted under its full one, and a host that is also a configured subnet ends
with whichever of the two entries was added last.
-/

namespace MagiTrickle.Netfilter

open MagiTrickle.Lib MagiTrickle.Rules MagiTrickle.DnsCache

/-! ## The statement -/

section Statement

variable (rx : Bytes → Bytes → Bool) (group : Config.Group) (cache : Cache) (now : Int)
  (fam : Family)

/-- The key is the prefix of an enabled subnet rule, or one of the halves of a zero prefix. -/
def SubnetKey (k : NetKey fam) : Prop := ∃ rule ∈ group.rules.items, SubnetOf fam rule k.subnet

/-- The key is an unexpired cached address, with `remain` seconds to live, of a known name that an
enabled rule matches. -/
def CachedKey (k : NetKey fam) (remain : Int) : Prop :=
  ∃ rule ∈ group.rules.items, ∃ a, k = .host fam a ∧ CachedBy rx cache now fam rule a remain

/-- The set has exactly the desired keys; those of subnet rules are permanent, and those from the
cache are permanent or last at least as long as the cache entry. -/
structure SyncReached (set : KernelSet fam) : Prop where
  keys : ∀ k, k ∈ set ↔ SubnetKey group fam k ∨ ∃ remain, CachedKey rx group cache now fam k remain
  permanent : ∀ k, SubnetKey group fam k → set.lookup k = some 0
  lasting : ∀ k remain t, CachedKey rx group cache now fam k remain → set.lookup k = some t →
    t = 0 ∨ remain ≤ t

/-- A rule that gives the cached host `k` stands before every rule that gives it as a subnet. -/
def CachedFirst (k : NetKey fam) : Prop :=
  ∃ pre rule post, group.rules.items = pre ++ rule :: post ∧
    (∃ a remain, k = .host fam a ∧ CachedBy rx cache now fam rule a remain) ∧
    ∀ q ∈ pre, ¬ SubnetOf fam q k.subnet

/-- The condition on a cached host `k` against the set before the sync. Lifetimes of `2 ^ 32`
seconds and more are cut to 32 bits by the source, and a lifetime cut to zero means permanent. -/
def HostSettled (set : KernelSet fam) (k : NetKey fam) : Prop :=
  (SubnetKey group fam k ∧
    ((∀ r, CachedKey rx group cache now fam k r → (2 ^ 32 : Int) ∣ r) ∨
      (set.lookup k ≠ some 0 ∧ CachedFirst rx group cache now fam k))) ∨
  (¬ SubnetKey group fam k ∧ k ∉ set ∧
    ((∀ r, CachedKey rx group cache now fam k r → r < 2 ^ 32) ∨
      ∀ r, CachedKey rx group cache now fam k r → (2 ^ 32 : Int) ∣ r))

end Statement

/-! ## The entries of one key -/

def hostEntry (a : Bytes) (t : Nat) : NewEntry := ⟨⟨a, 0⟩, true, t⟩

def subnetEntry (s : Subnet) : NewEntry := ⟨s, false, 0⟩

@[simp] theorem timeout_hostEntry (a : Bytes) (t : Nat) : (hostEntry a t).timeout = t := rfl

@[simp] theorem timeout_subnetEntry (s : Subnet) : (subnetEntry s).timeout = 0 := rfl

@[simp] theorem subnet_subnetEntry (s : Subnet) : (subnetEntry s).subnet = s := rfl

def lifetimes (ws : List Want) : List Int :=
  ws.filterMap fun
    | .host _ r => some r
    | .subnet _ => none

/-- The greatest of some lifetimes cut to 32 bits, or `t`. -/
def topTtl (t : Nat) (rs : List Int) : Nat := rs.foldl (fun t r => max t (ttlOf r)) t

section Shape

variable {a : Bytes} {s : Subnet}

/-- Requests for the host `a` and the subnet `s` only. -/
def Only (a : Bytes) (s : Subnet) (ws : List Want) : Prop :=
  ∀ w ∈ ws, w = .subnet s ∨ ∃ r, w = .host a r

def put (w : Want) (l : List NewEntry) : List NewEntry :=
  upsert NewEntry.subnet w.upsert.k w.upsert.new w.upsert.upd l

theorem runWants_cons (w : Want) (ws : List Want) (l : List NewEntry) :
    runWants (w :: ws) l = runWants ws (put w l) := rfl

theorem put_host_nil (r : Int) : put (.host a r) [] = [hostEntry a (ttlOf r)] := rfl

theorem put_subnet_nil : put (.subnet s) [] = [subnetEntry s] := rfl

theorem put_host_hostEntry (t : Nat) (r : Int) (l : List NewEntry) :
    put (.host a r) (hostEntry a t :: l) = hostEntry a (max t (ttlOf r)) :: l := by
  have hupd : newUpdate true (ttlOf r) true (hostEntry a t) = hostEntry a (max t (ttlOf r)) := by
    unfold newUpdate hostEntry
    by_cases h : t < ttlOf r
    · simp [h, Nat.max_eq_right h.le]
    · simp [h, Nat.max_eq_left (Nat.le_of_not_lt h)]
  rw [← hupd]
  simp [put, upsert, Want.upsert, hostEntry]

theorem put_subnet_subnetEntry (l : List NewEntry) :
    put (.subnet s) (subnetEntry s :: l) = subnetEntry s :: l := by
  simp [put, upsert, Want.upsert, newUpdate, subnetEntry]

theorem put_subnet_hostEntry (hs : s.cidr ≠ 0) (t : Nat) (l : List NewEntry) :
    put (.subnet s) (hostEntry a t :: l) = hostEntry a t :: put (.subnet s) l := by
  have hne : ¬ (hostEntry a t).subnet = s := fun e => hs (congrArg Subnet.cidr e.symm)
  simp [put, upsert, Want.upsert, hne]

theorem put_host_subnetEntry (hs : s.cidr ≠ 0) (r : Int) (l : List NewEntry) :
    put (.host a r) (subnetEntry s :: l) = subnetEntry s :: put (.host a r) l := by
  have hne : ¬ s = ⟨a, 0⟩ := fun e => hs (congrArg Subnet.cidr e)
  simp [put, upsert, Want.upsert, subnetEntry, hne]

theorem lifetimes_host (b : Bytes) (r : Int) (ws : List Want) :
    lifetimes (.host b r :: ws) = r :: lifetimes ws := rfl

theorem lifetimes_subnet (s' : Subnet) (ws : List Want) :
    lifetimes (.subnet s' :: ws) = lifetimes ws := rfl

theorem topTtl_cons (t : Nat) (r : Int) (rs : List Int) :
    topTtl t (r :: rs) = topTtl (max t (ttlOf r)) rs := rfl

theorem Only.tail {w : Want} {ws : List Want} (h : Only a s (w :: ws)) : Only a s ws :=
  fun v hv => h v (List.mem_cons_of_mem _ hv)

theorem runWants_both (hs : s.cidr ≠ 0) {ws : List Want} (h : Only a s ws) (t : Nat) :
    runWants ws [hostEntry a t, subnetEntry s] =
        [hostEntry a (topTtl t (lifetimes ws)), subnetEntry s] ∧
      runWants ws [subnetEntry s, hostEntry a t] =
        [subnetEntry s, hostEntry a (topTtl t (lifetimes ws))] := by
  induction ws generalizing t with
  | nil => exact ⟨rfl, rfl⟩
  | cons w ws ih =>
    simp only [runWants_cons]
    rcases h w (List.mem_cons_self ..) with rfl | ⟨r, rfl⟩
    · rw [put_subnet_hostEntry hs, put_subnet_subnetEntry, put_subnet_subnetEntry, lifetimes_subnet]
      exact ih h.tail t
    · rw [put_host_hostEntry, put_host_subnetEntry hs, put_host_hostEntry, lifetimes_host,
        topTtl_cons]
      exact ih h.tail _

theorem runWants_hostEntry (hs : s.cidr ≠ 0) {ws : List Want} (h : Only a s ws) (t : Nat) :
    runWants ws [hostEntry a t] = hostEntry a (topTtl t (lifetimes ws)) ::
      if .subnet s ∈ ws then [subnetEntry s] else [] := by
  induction ws generalizing t with
  | nil => rfl
  | cons w ws ih =>
    rw [runWants_cons]
    rcases h w (List.mem_cons_self ..) with rfl | ⟨r, rfl⟩
    · rw [put_subnet_hostEntry hs, put_subnet_nil, (runWants_both hs h.tail t).1, lifetimes_subnet,
        if_pos (List.mem_cons_self ..)]
    · rw [put_host_hostEntry, ih h.tail, lifetimes_host, topTtl_cons]
      simp

theorem runWants_subnetEntry (hs : s.cidr ≠ 0) {ws : List Want} (h : Only a s ws) :
    runWants ws [subnetEntry s] = subnetEntry s ::
      if lifetimes ws = [] then [] else [hostEntry a (topTtl 0 (lifetimes ws))] := by
  induction ws with
  | nil => rfl
  | cons w ws ih =>
    rw [runWants_cons]
    rcases h w (List.mem_cons_self ..) with rfl | ⟨r, rfl⟩
    · rw [put_subnet_subnetEntry, ih h.tail, lifetimes_subnet]
    · rw [put_host_subnetEntry hs, put_host_nil, (runWants_both hs h.tail _).2, lifetimes_host,
        topTtl_cons]
      simp

def HostFirst (ws : List Want) : Prop := ∃ b r ws', ws = .host b r :: ws'

/-- The entries that the requests of one key leave. -/
theorem runWants_only (hs : s.cidr ≠ 0) {ws : List Want} (h : Only a s ws) :
    (ws = [] ∧ runWants ws [] = []) ∨
    (HostFirst ws ∧ runWants ws [] = hostEntry a (topTtl 0 (lifetimes ws)) ::
      if .subnet s ∈ ws then [subnetEntry s] else []) ∨
    (¬ HostFirst ws ∧ .subnet s ∈ ws ∧ runWants ws [] = subnetEntry s ::
      if lifetimes ws = [] then [] else [hostEntry a (topTtl 0 (lifetimes ws))]) := by
  rcases ws with _ | ⟨w, ws⟩
  · exact .inl ⟨rfl, rfl⟩
  · rcases h w (List.mem_cons_self ..) with rfl | ⟨r, rfl⟩
    · refine .inr (.inr ⟨?_, List.mem_cons_self .., ?_⟩)
      · rintro ⟨b, r, ws', h⟩
        cases h
      · rw [runWants_cons, put_subnet_nil, runWants_subnetEntry hs h.tail, lifetimes_subnet]
    · refine .inr (.inl ⟨⟨a, r, ws, rfl⟩, ?_⟩)
      rw [runWants_cons, put_host_nil, runWants_hostEntry hs h.tail, lifetimes_host, topTtl_cons]
      simp

end Shape

/-! ## Lifetimes -/

theorem ttlOf_lt (r : Int) : ttlOf r < 2 ^ 32 := by
  unfold ttlOf
  omega

theorem ttlOf_eq_zero (r : Int) : ttlOf r = 0 ↔ (2 ^ 32 : Int) ∣ r := by
  unfold ttlOf
  omega

theorem ttlOf_of_lt {r : Int} (h0 : 0 < r) (h : r < 2 ^ 32) : (ttlOf r : Int) = r := by
  unfold ttlOf
  omega

theorem le_topTtl (t : Nat) (rs : List Int) : t ≤ topTtl t rs ∧ ∀ r ∈ rs, ttlOf r ≤ topTtl t rs := by
  induction rs generalizing t with
  | nil => simp [topTtl]
  | cons r rs ih =>
    obtain ⟨h1, h2⟩ := ih (max t (ttlOf r))
    rw [topTtl_cons]
    refine ⟨by omega, fun x hx => ?_⟩
    rcases List.mem_cons.mp hx with rfl | hx
    · omega
    · exact h2 x hx

theorem topTtl_mem (t : Nat) (rs : List Int) : topTtl t rs = t ∨ ∃ r ∈ rs, topTtl t rs = ttlOf r := by
  induction rs generalizing t with
  | nil => exact .inl rfl
  | cons r rs ih =>
    rw [topTtl_cons]
    rcases ih (max t (ttlOf r)) with h | ⟨x, hx, h⟩
    · rcases le_total t (ttlOf r) with hle | hle
      · exact .inr ⟨r, List.mem_cons_self .., by rw [h, max_eq_right hle]⟩
      · exact .inl (by rw [h, max_eq_left hle])
    · exact .inr ⟨x, List.mem_cons_of_mem _ hx, h⟩

theorem topTtl_eq_zero {rs : List Int} : topTtl 0 rs = 0 ↔ ∀ r ∈ rs, (2 ^ 32 : Int) ∣ r := by
  constructor
  · intro h r hr
    have := (le_topTtl 0 rs).2 r hr
    exact (ttlOf_eq_zero r).mp (by omega)
  · intro h
    rcases topTtl_mem 0 rs with h0 | ⟨r, hr, ht⟩
    · exact h0
    · rw [ht, ttlOf_eq_zero]
      exact h r hr

theorem le_topTtl_iff {rs : List Int} (hpos : ∀ r ∈ rs, 0 < r) :
    (∀ r ∈ rs, r ≤ topTtl 0 rs) ↔ ∀ r ∈ rs, r < 2 ^ 32 := by
  have hlt : topTtl 0 rs < 2 ^ 32 := by
    rcases topTtl_mem 0 rs with h0 | ⟨r, -, ht⟩
    · rw [h0]; decide
    · rw [ht]; exact ttlOf_lt r
  constructor
  · intro h r hr
    have := h r hr
    omega
  · intro h r hr
    have h1 := (le_topTtl 0 rs).2 r hr
    have h2 := ttlOf_of_lt (hpos r hr) (h r hr)
    omega

/-! ## What a sync leaves under a key -/

section Key

variable {rx : Bytes → Bytes → Bool} {group : Config.Group} {cache : Cache} {now : Int}
  {fam : Family}

def keyWants (rx : Bytes → Bytes → Bool) (group : Config.Group) (cache : Cache) (now : Int)
    (fam : Family) (k : NetKey fam) : List Want :=
  (group.rules.items.flatMap (ruleWants rx cache now fam)).filter fun w =>
    netKey fam w.key = some k

theorem netKey_host (a : Bytes) : netKey fam ⟨a, 0⟩ = some (.host fam a) := rfl

theorem subnet_mem_keyWants {k : NetKey fam} {s : Subnet} :
    .subnet s ∈ keyWants rx group cache now fam k ↔ s = k.subnet ∧ SubnetKey group fam k := by
  simp only [keyWants, List.mem_filter, List.mem_flatMap, subnet_mem_ruleWants, Want.key,
    SubnetKey]
  constructor
  · rintro ⟨⟨rule, hr, hs⟩, hk⟩
    have := netKey_eq_some_of_pos (Nat.pos_iff_ne_zero.mp hs.cidr_bounds.1) (of_decide_eq_true hk)
    subst this
    exact ⟨rfl, rule, hr, hs⟩
  · rintro ⟨rfl, rule, hr, hs⟩
    exact ⟨⟨rule, hr, hs⟩, decide_eq_true (netKey_subnet k)⟩

theorem host_mem_keyWants {k : NetKey fam} {a : Bytes} {r : Int} :
    .host a r ∈ keyWants rx group cache now fam k ↔ k = .host fam a ∧
      ∃ rule ∈ group.rules.items, CachedBy rx cache now fam rule a r := by
  simp only [keyWants, List.mem_filter, List.mem_flatMap, host_mem_ruleWants, Want.key,
    netKey_host, Option.some.injEq, decide_eq_true_eq]
  rw [and_comm, eq_comm]

theorem mem_lifetimes {ws : List Want} {r : Int} : r ∈ lifetimes ws ↔ ∃ a, .host a r ∈ ws := by
  simp only [lifetimes, List.mem_filterMap]
  constructor
  · rintro ⟨w, hw, h⟩
    cases w with
    | subnet s => cases h
    | host a r' =>
      cases h
      exact ⟨a, hw⟩
  · rintro ⟨a, hw⟩
    exact ⟨_, hw, rfl⟩

theorem mem_lifetimes_keyWants {k : NetKey fam} {r : Int} :
    r ∈ lifetimes (keyWants rx group cache now fam k) ↔ CachedKey rx group cache now fam k r := by
  simp only [mem_lifetimes, host_mem_keyWants, CachedKey]
  constructor
  · rintro ⟨a, hk, rule, hr, hc⟩
    exact ⟨rule, hr, a, hk, hc⟩
  · rintro ⟨rule, hr, a, hk, hc⟩
    exact ⟨a, hk, rule, hr, hc⟩

theorem CachedKey.pos {k : NetKey fam} {r : Int} (h : CachedKey rx group cache now fam k r) :
    0 < r := by
  obtain ⟨rule, _, a, _, _, name, _, _, ca, hca, _, _, rfl⟩ := h
  have := deadline_of_mem_cacheGetAddresses hca
  omega

theorem only_keyWants (k : NetKey fam) :
    Only k.addr k.subnet (keyWants rx group cache now fam k) := by
  intro w hw
  cases w with
  | subnet s => exact .inl (by rw [(subnet_mem_keyWants.mp hw).1])
  | host a r =>
    obtain ⟨rfl, -⟩ := host_mem_keyWants.mp hw
    exact .inr ⟨r, rfl⟩

/-- The first request for a key is a host exactly when a matching rule stands before every subnet
rule of the key. -/
theorem hostFirst_keyWants (k : NetKey fam) :
    HostFirst (keyWants rx group cache now fam k) ↔ CachedFirst rx group cache now fam k := by
  unfold keyWants CachedFirst
  induction group.rules.items with
  | nil =>
    constructor
    · rintro ⟨b, r, ws', h⟩
      cases h
    · rintro ⟨pre, rule, post, h, -⟩
      simp at h
  | cons q rules ih =>
    rw [List.flatMap_cons, List.filter_append]
    cases hq : (ruleWants rx cache now fam q).filter (fun w => netKey fam w.key = some k) with
    | nil =>
      -- the rule asks for nothing under this key
      have hnone : ∀ w ∈ ruleWants rx cache now fam q, netKey fam w.key ≠ some k := by
        simpa using List.filter_eq_nil_iff.mp hq
      rw [List.nil_append, ih]
      constructor
      · rintro ⟨pre, rule, post, hsplit, hc, hpre⟩
        refine ⟨q :: pre, rule, post, by rw [hsplit]; rfl, hc, ?_⟩
        intro q' hq'
        rcases List.mem_cons.mp hq' with rfl | hq'
        · exact fun hs => hnone _ (subnet_mem_ruleWants.mpr hs) (netKey_subnet k)
        · exact hpre q' hq'
      · rintro ⟨pre, rule, post, hsplit, ⟨a, r, rfl, hc⟩, hpre⟩
        rcases pre with _ | ⟨q', pre⟩
        · cases hsplit
          exact absurd (netKey_host a) (hnone _ (host_mem_ruleWants.mpr hc))
        · cases hsplit
          exact ⟨pre, rule, post, rfl, ⟨a, r, rfl, hc⟩,
            fun x hx => hpre x (List.mem_cons_of_mem _ hx)⟩
    | cons w ws =>
      have hw := List.mem_filter.mp (hq ▸ List.mem_cons_self .. : w ∈ List.filter _ _)
      have hkey : netKey fam w.key = some k := by simpa using hw.2
      cases w with
      | subnet s =>
        have hs := subnet_mem_ruleWants.mp hw.1
        have hsk := netKey_eq_some_of_pos (Nat.pos_iff_ne_zero.mp hs.cidr_bounds.1) hkey
        subst hsk
        constructor
        · rintro ⟨b, r, ws', h⟩
          cases h
        · rintro ⟨pre, rule, post, hsplit, ⟨a, r, -, hc⟩, hpre⟩
          rcases pre with _ | ⟨q', pre⟩
          · cases hsplit
            exact (ruleWants_uniform hw.1 (host_mem_ruleWants.mpr hc)).elim
          · cases hsplit
            exact absurd hs (hpre q (List.mem_cons_self ..))
      | host a r =>
        refine iff_of_true ⟨a, r, _, rfl⟩ ⟨[], q, rules, rfl, ⟨a, r, ?_, ?_⟩, by simp⟩
        · exact (Option.some.inj ((netKey_host a).symm.trans hkey)).symm
        · exact host_mem_ruleWants.mp hw.1

/-- The built entries of a key are those its requests leave. -/
theorem filter_syncBuildNewLists (k : NetKey fam) :
    ((syncBuildNewLists rx group cache now).get fam).filter
        (fun e => netKey fam e.subnet = some k) =
      runWants (keyWants rx group cache now fam k) [] := by
  rw [get_syncBuildNewLists]
  have hkeyed : ∀ u ∈ (group.rules.items.flatMap (ruleWants rx cache now fam)).map Want.upsert,
      u.Keyed NewEntry.subnet := by
    intro u hu
    obtain ⟨w, -, rfl⟩ := List.mem_map.mp hu
    exact w.keyed_upsert
  have hrun := Upsert.filter_run hkeyed (fun s => decide (netKey fam s = some k)) []
  rw [runWants, hrun, keyWants, runWants, List.filter_map, List.filter_nil]
  simp [Function.comp_def]

theorem skips_hostEntry (set : KernelSet fam) (a : Bytes) (t : Nat) :
    skips (realList set) (hostEntry a t) = false := by
  have : (realList set).find? (fun o => o.subnet = (hostEntry a t).subnet) = none := by
    rw [List.find?_eq_none]
    intro o ho
    obtain ⟨x, -, rfl⟩ := List.mem_map.mp ho
    have hpos : x.1.subnet.cidr ≠ 0 := Nat.pos_iff_ne_zero.mp x.1.pos
    exact fun h => hpos (congrArg Subnet.cidr (of_decide_eq_true h))
  simp [skips, this]

theorem skips_subnetEntry (set : KernelSet fam) (k : NetKey fam) :
    skips (realList set) (subnetEntry k.subnet) = decide (set.lookup k = some 0) := by
  have := find?_realList set k
  unfold skips
  rw [show (subnetEntry k.subnet).subnet = k.subnet from rfl, this]
  cases set.lookup k <;> simp [parseOneEntry, subnetEntry]

/-- Both loops of a sync see only the entries of the key. -/
theorem lookup_sync_entries (r : Ipset) (hr : r.enabled = true) (k : NetKey fam) :
    ((syncDiff fam r ((syncBuildNewLists rx group cache now).get fam)).get fam).lookup k =
      if k ∈ r.get fam ∧ ¬ (runWants (keyWants rx group cache now fam k) []).any
          (fun e => decide (k.subnet = e.subnet)) then none
      else ((((runWants (keyWants rx group cache now fam k) []).filter fun e =>
        !skips (realList (r.get fam)) e).getLast?).map NewEntry.timeout).or
          ((r.get fam).lookup k) := by
  rw [lookup_syncDiff r hr, ← filter_syncBuildNewLists, List.filter_filter, List.any_filter]
  have hlast : (fun e : NewEntry => decide (netKey fam e.subnet = some k ∧
      ¬ skips (realList (r.get fam)) e)) =
      fun e => !skips (realList (r.get fam)) e && decide (netKey fam e.subnet = some k) := by
    funext e
    rw [Bool.and_comm]
    simp
  have hany : (fun e : NewEntry => decide (k.subnet = e.subnet)) =
      fun e => decide (netKey fam e.subnet = some k) && decide (k.subnet = e.subnet) := by
    funext e
    by_cases he : k.subnet = e.subnet
    · simp [← he, netKey_subnet]
    · simp [he]
  rw [hlast, ← hany]

open Classical in
/-- What a sync leaves under a key, by its requests and by what the set had. -/
theorem lookup_sync (r : Ipset) (hr : r.enabled = true) (k : NetKey fam) :
    ((syncDiff fam r ((syncBuildNewLists rx group cache now).get fam)).get fam).lookup k =
      if lifetimes (keyWants rx group cache now fam k) = [] then
        if SubnetKey group fam k then some 0 else none
      else if SubnetKey group fam k then
        if (r.get fam).lookup k = some 0 ∨ ¬ CachedFirst rx group cache now fam k then
          some (topTtl 0 (lifetimes (keyWants rx group cache now fam k)))
        else some 0
      else if k ∈ r.get fam then none
      else some (topTtl 0 (lifetimes (keyWants rx group cache now fam k))) := by
  have hcidr : k.subnet.cidr ≠ 0 := Nat.pos_iff_ne_zero.mp k.pos
  have hne : ∀ t, ¬ k.subnet = (hostEntry k.addr t).subnet :=
    fun t h => hcidr (congrArg Subnet.cidr h)
  have hS : .subnet k.subnet ∈ keyWants rx group cache now fam k ↔ SubnetKey group fam k := by
    simp [subnet_mem_keyWants]
  rw [lookup_sync_entries r hr, ← hostFirst_keyWants]
  have honly : Only k.addr k.subnet (keyWants rx group cache now fam k) := only_keyWants k
  have hshape := runWants_only hcidr honly
  generalize keyWants rx group cache now fam k = ws at honly hshape hS ⊢
  rcases hshape with ⟨rfl, hrun⟩ | ⟨hf, hrun⟩ | ⟨hf, hsub, hrun⟩
  · -- not wanted
    have : ¬ SubnetKey group fam k := by simp [← hS]
    rw [hrun, if_pos (show lifetimes [] = [] from rfl), if_neg this]
    by_cases hk : k ∈ r.get fam
    · simp [hk]
    · simp [hk, AList.lookup_eq_none.mpr hk]
  · -- the host entry comes first
    have hlife : lifetimes ws ≠ [] := by
      obtain ⟨b, r, ws', rfl⟩ := hf
      simp [lifetimes_host]
    rw [hrun, if_neg hlife]
    by_cases hsub : SubnetKey group fam k
    · rw [if_pos (hS.mpr hsub), if_pos hsub]
      by_cases hp : (r.get fam).lookup k = some 0
      · simp [skips_hostEntry, skips_subnetEntry, hp]
      · simp [skips_hostEntry, skips_subnetEntry, hp, hf]
    · rw [if_neg (fun h => hsub (hS.mp h)), if_neg hsub]
      by_cases hk : k ∈ r.get fam
      · simp [hne, hk]
      · simp [hk, skips_hostEntry]
  · -- the subnet entry comes first
    rw [hrun, if_pos (hS.mp hsub), if_pos (hS.mp hsub)]
    by_cases hlife : lifetimes ws = []
    · by_cases hp : (r.get fam).lookup k = some 0
      · simp [hlife, skips_subnetEntry, hp]
      · simp [hlife, skips_subnetEntry, hp]
    · simp [hlife, skips_hostEntry, skips_subnetEntry, List.filter_cons, hf]
      split <;> simp

/-- A sync leaves the desired content under a key exactly when the key, if it is a cached host, is
settled. -/
theorem key_reached_iff (r : Ipset) (hr : r.enabled = true) (k : NetKey fam) (o : Option Nat)
    (ho : o = ((syncDiff fam r ((syncBuildNewLists rx group cache now).get fam)).get fam).lookup k) :
    ((o.isSome ↔ SubnetKey group fam k ∨ ∃ remain, CachedKey rx group cache now fam k remain) ∧
      (SubnetKey group fam k → o = some 0) ∧
      ∀ remain t, CachedKey rx group cache now fam k remain → o = some t → t = 0 ∨ remain ≤ t) ↔
    ((∃ remain, CachedKey rx group cache now fam k remain) →
      HostSettled rx group cache now fam (r.get fam) k) := by
  classical
  rw [lookup_sync r hr k] at ho
  have hpos : ∀ x ∈ lifetimes (keyWants rx group cache now fam k), 0 < x :=
    fun x hx => (mem_lifetimes_keyWants.mp hx).pos
  simp only [HostSettled, ← mem_lifetimes_keyWants]
  generalize lifetimes (keyWants rx group cache now fam k) = rs at ho hpos ⊢
  have hle := le_topTtl_iff hpos
  have hzero : topTtl 0 rs = 0 ↔ ∀ x ∈ rs, (2 ^ 32 : Int) ∣ x := topTtl_eq_zero
  by_cases hrs : rs = []
  · subst hrs
    by_cases hS : SubnetKey group fam k <;> simp [hS, ho]
  · have hex : ∃ x, x ∈ rs := List.exists_mem_of_ne_nil rs hrs
    rw [if_neg hrs] at ho
    simp only [hex, or_true, iff_true, forall_const]
    by_cases hS : SubnetKey group fam k
    · rw [if_pos hS] at ho
      simp only [hS, not_true_eq_false, false_and, or_false, true_and, forall_const, ← hzero]
      split at ho
      · next hP =>
        subst ho
        have hPF : ¬ (AList.lookup k (r.get fam) ≠ some 0 ∧
            CachedFirst rx group cache now fam k) := by tauto
        simp only [hPF, or_false, Option.isSome_some, true_and, Option.some.injEq]
        exact ⟨fun h => h.1, fun h => ⟨h, fun x t _ ht => .inl (ht ▸ h)⟩⟩
      · next hP =>
        subst ho
        simp only [not_or, not_not] at hP
        exact iff_of_true ⟨rfl, rfl, fun x t _ ht => .inl (Option.some.inj ht).symm⟩ (.inr hP)
    · rw [if_neg hS] at ho
      simp only [hS, not_false_eq_true, false_and, false_or, true_and, IsEmpty.forall_iff]
      split at ho
      · next hM => simp [ho, hM]
      · next hM =>
        subst ho
        simp only [Option.isSome_some, true_and, Option.some.injEq, hM, not_false_eq_true]
        constructor
        · intro h
          by_cases h0 : topTtl 0 rs = 0
          · exact .inr (hzero.mp h0)
          · exact .inl (hle.mp fun x hx => (h x _ hx rfl).resolve_left h0)
        · rintro (h | h) x t hx rfl
          · exact .inr (hle.mpr h x hx)
          · exact .inl (hzero.mpr h)

end Key

/-! ## The sync of a ruleset -/

theorem get_syncDiff_ne {fam fam' : Family} (h : fam' ≠ fam) (r : Ipset) (hr : r.enabled = true)
    (news : List NewEntry) : (syncDiff fam r news).get fam' = r.get fam' := by
  rw [syncDiff_eq r hr, Ipset.get_put_ne _ h]

theorem get_syncDiff_congr {fam : Family} {r r' : Ipset} (hr : r.enabled = true)
    (hr' : r'.enabled = true) (h : r.get fam = r'.get fam) (news : List NewEntry) :
    (syncDiff fam r news).get fam = (syncDiff fam r' news).get fam := by
  rw [syncDiff_eq r hr, syncDiff_eq r' hr', h, Ipset.get_put_self, Ipset.get_put_self]

/-- A ruleset sync brings each set in line with the list built for its family. -/
theorem get_rulesetSync (rx : Bytes → Bytes → Bool) (rs : Ruleset) (cache : Cache) (now : Int)
    (hrs : rs.enabled = true) (hg : rs.group.enable = true) (hr : rs.ipset.enabled = true)
    (fam : Family) :
    (rulesetSync rx rs cache now).ipset.get fam =
      (syncDiff fam rs.ipset ((syncBuildNewLists rx rs.group cache now).get fam)).get fam := by
  rw [rulesetSync, if_neg (by simpa using hrs), if_neg (by simpa using hg)]
  have hr' : (syncDiff .v4 rs.ipset (syncBuildNewLists rx rs.group cache now).new4).enabled =
      true := by
    rw [syncDiff_eq _ hr]
    simpa using hr
  cases fam with
  | v4 => exact get_syncDiff_ne (by decide) _ hr' _
  | v6 => exact get_syncDiff_congr hr' hr (get_syncDiff_ne (by decide) _ hr _) _

/-- A sync of an enabled group leaves exactly the desired entries in both sets if and only if every
cached host of the group is settled against the sets before the sync. -/
theorem rulesetSync_reached_iff (rx : Bytes → Bytes → Bool) (rs : Ruleset) (cache : Cache)
    (now : Int) (hrs : rs.enabled = true) (hg : rs.group.enable = true)
    (hr : rs.ipset.enabled = true) :
    (∀ fam, SyncReached rx rs.group cache now fam ((rulesetSync rx rs cache now).ipset.get fam)) ↔
      ∀ fam k, (∃ remain, CachedKey rx rs.group cache now fam k remain) →
        HostSettled rx rs.group cache now fam (rs.ipset.get fam) k := by
  refine forall_congr' fun fam => ?_
  rw [get_rulesetSync rx rs cache now hrs hg hr fam]
  constructor
  · intro h k
    refine (key_reached_iff rs.ipset hr k _ rfl).mp ⟨?_, h.permanent k, h.lasting k⟩
    rw [← h.keys k, AList.lookup_isSome]
  · intro h
    have hk := fun k => (key_reached_iff rs.ipset hr k _ rfl).mpr (h k)
    exact ⟨fun k => by rw [← (hk k).1, AList.lookup_isSome], fun k => (hk k).2.1,
      fun k => (hk k).2.2⟩

def oneRule (type rule : Bytes) (k : NetKey .v4) (t : Nat) : Ruleset where
  group := ⟨⟨1, 0, 0, 0⟩, str "g", str "#ffffff", str "br0", true,
    .exact [⟨⟨2, 0, 0, 0⟩, str "r", type, rule, true⟩]⟩
  enabled := true
  ipset := ⟨true, AList.singleton k t, ∅⟩

/-- A stale entry is replaced by the two halves of a zero prefix. -/
theorem rulesetSync_reached_halves :
    SyncReached (fun _ _ => false)
      (oneRule (str "subnet") (str "0.0.0.0/0") (.host .v4 [1, 2, 3, 4]) 60).group ⟨[]⟩ 0 .v4
      ((rulesetSync (fun _ _ => false)
        (oneRule (str "subnet") (str "0.0.0.0/0") (.host .v4 [1, 2, 3, 4]) 60) ⟨[]⟩ 0).ipset.get
        .v4) := by
  refine (rulesetSync_reached_iff (fun _ _ => false)
    (oneRule (str "subnet") (str "0.0.0.0/0") (.host .v4 [1, 2, 3, 4]) 60)
    ⟨[]⟩ 0 rfl rfl rfl).mpr ?_ .v4
  -- the cache knows no name
  rintro fam k ⟨_, _, _, _, _, _, _, hname, _⟩
  simp [cacheListKnownDomains] at hname

/-- A host of the cache that the set holds already is gone after the sync. -/
theorem rulesetSync_drops_held_host :
    ¬ ∀ (rx : Bytes → Bytes → Bool) (rs : Ruleset) (cache : Cache) (now : Int),
      rs.enabled = true → rs.group.enable = true → rs.ipset.enabled = true →
      ∀ fam, SyncReached rx rs.group cache now fam
        ((rulesetSync rx rs cache now).ipset.get fam) := by
  intro h
  have hreached := h (fun _ _ => false)
    (oneRule (str "domain") (str "a.com") (.host .v4 [1, 2, 3, 4]) 60)
    ⟨[⟨str "a.com", [⟨[1, 2, 3, 4], 60⟩], none⟩]⟩ 0 rfl rfl rfl .v4
  have hmem := (hreached.keys (.host .v4 [1, 2, 3, 4])).mpr
    (.inr ⟨60, _, List.mem_singleton_self _, [1, 2, 3, 4], rfl, rfl, str "a.com",
      List.mem_singleton_self _, by decide, ⟨[1, 2, 3, 4], 60⟩, by decide, rfl, rfl, rfl⟩)
  revert hmem
  decide

end MagiTrickle.Netfilter
