import MagiTrickle.Netfilter.SyncCorrect

/-!
# Configured subnets between syncs

A ruleset is synced now and then; in between, matched DNS addresses are added to
its sets with a lifetime, and the kernel drops entries whose time is up. A host
that is configured as a full-length subnet and also comes from the cache has two
entries in the list that a sync builds, under prefix length zero and under the
full one. They name one key of the kernel set, and whichever is added last
decides whether the key is permanent.
-/

namespace MagiTrickle.Netfilter

open MagiTrickle.DnsCache

/-- `mt_ruleset_add_ipv4` and `mt_ruleset_add_ipv6`. -/
def rulesetAdd (rs : Ruleset) (fam : Family) (s : Subnet) (ttl : UInt32) : Ruleset :=
  if ¬ rs.enabled then rs
  else if ¬ rs.group.enable then rs
  else { rs with ipset := rs.ipset.add fam s (some ttl.toNat) }

/-- What happens to the sets of a ruleset. -/
inductive RulesetOp where
  /-- `mt_ruleset_sync`, with the cache and the time it reads. -/
  | sync (cache : Cache) (now : Int)
  /-- The call of `on_match`, which gives no prefix length. -/
  | add (fam : Family) (addr : Bytes) (ttl : UInt32)
  /-- The time of an entry is up. -/
  | expire (fam : Family) (k : NetKey fam)

def Ipset.expire (r : Ipset) (fam : Family) (k : NetKey fam) : Ipset :=
  match (r.get fam).lookup k with
  | none => r
  | some t => if t = 0 then r else r.put fam ((r.get fam).erase k)

def rulesetStep (rx : Bytes → Bytes → Bool) (rs : Ruleset) : RulesetOp → Ruleset
  | .sync cache now => rulesetSync rx rs cache now
  | .add fam addr ttl => rulesetAdd rs fam ⟨addr, 0⟩ ttl
  | .expire fam k => { rs with ipset := rs.ipset.expire fam k }

def rulesetRun (rx : Bytes → Bytes → Bool) (rs : Ruleset) (ops : List RulesetOp) : Ruleset :=
  ops.foldl (rulesetStep rx) rs

/-- The cache does not get in the way of the configured key `k` in a sync: every lifetime of `k` in
the cache is cut to zero seconds, which means permanent, or the key is not held permanently before
the sync and its rule stands behind one that finds it in the cache. -/
def Unchallenged (rx : Bytes → Bytes → Bool) (group : Config.Group) (cache : Cache) (now : Int)
    (fam : Family) (set : KernelSet fam) (k : NetKey fam) : Prop :=
  (∀ r, CachedKey rx group cache now fam k r → (2 ^ 32 : Int) ∣ r) ∨
    (set.lookup k ≠ some 0 ∧ CachedFirst rx group cache now fam k)

section Sync

variable {rx : Bytes → Bytes → Bool} {group : Config.Group} {cache : Cache} {now : Int}
  {fam : Family}

/-- One sync leaves a configured key permanent exactly when it is unchallenged. -/
theorem lookup_sync_permanent_iff (r : Ipset) (hr : r.enabled = true) {k : NetKey fam}
    (hk : SubnetKey group fam k) :
    ((syncDiff fam r ((syncBuildNewLists rx group cache now).get fam)).get fam).lookup k = some 0 ↔
      Unchallenged rx group cache now fam (r.get fam) k := by
  classical
  rw [lookup_sync r hr k]
  unfold Unchallenged
  simp only [← mem_lifetimes_keyWants]
  have hzero : topTtl 0 (lifetimes (keyWants rx group cache now fam k)) = 0 ↔
      ∀ r ∈ lifetimes (keyWants rx group cache now fam k), (2 ^ 32 : Int) ∣ r := topTtl_eq_zero
  by_cases hnil : lifetimes (keyWants rx group cache now fam k) = []
  · rw [if_pos hnil, if_pos hk, hnil]
    simp
  · rw [if_neg hnil, if_pos hk]
    split
    · next hlate =>
      have hno : ¬ ((r.get fam).lookup k ≠ some 0 ∧ CachedFirst rx group cache now fam k) := by
        rintro ⟨hp, hf⟩
        rcases hlate with hp' | hf'
        · exact hp hp'
        · exact hf' hf
      rw [Option.some_inj, hzero]
      simp only [hno, or_false]
    · next hlate =>
      rw [not_or, not_not] at hlate
      simp [hlate.1, hlate.2]

theorem unchallenged_of_plen_ne {k : NetKey fam} (hk : k.plen ≠ fam.max) (set : KernelSet fam) :
    Unchallenged rx group cache now fam set k := by
  refine .inl fun r hr => ?_
  obtain ⟨rule, -, a, rfl, -⟩ := hr
  exact absurd rfl hk

end Sync

/-! ## Runs -/

structure On (rs : Ruleset) : Prop where
  ruleset : rs.enabled = true
  group : rs.group.enable = true
  ipset : rs.ipset.enabled = true

theorem enabled_expire (r : Ipset) (fam : Family) (k : NetKey fam) :
    (r.expire fam k).enabled = r.enabled := by
  unfold Ipset.expire
  split
  · rfl
  · split
    · rfl
    · exact r.enabled_put fam _

section Run

variable {rx : Bytes → Bytes → Bool} {rs : Ruleset}

theorem enabled_syncDiff {fam : Family} {r : Ipset} (hr : r.enabled = true)
    (news : List NewEntry) : (syncDiff fam r news).enabled = true := by
  rw [syncDiff_eq r hr, Ipset.enabled_put]
  exact hr

/-- No operation on the sets switches anything off or changes the group. -/
theorem rulesetStep_on (rx : Bytes → Bytes → Bool) (h : On rs) (op : RulesetOp) :
    On (rulesetStep rx rs op) ∧ (rulesetStep rx rs op).group = rs.group := by
  cases op with
  | sync cache now =>
    rw [rulesetStep, rulesetSync, if_neg (by simpa using h.ruleset), if_neg (by simpa using h.group)]
    exact ⟨⟨h.ruleset, h.group, enabled_syncDiff (enabled_syncDiff h.ipset _) _⟩, rfl⟩
  | add fam addr ttl =>
    rw [rulesetStep, rulesetAdd, if_neg (by simpa using h.ruleset), if_neg (by simpa using h.group)]
    refine ⟨⟨h.ruleset, h.group, ?_⟩, rfl⟩
    dsimp only
    rw [Ipset.add, if_pos h.ipset, Ipset.enabled_put]
    exact h.ipset
  | expire fam k =>
    refine ⟨⟨h.ruleset, h.group, ?_⟩, rfl⟩
    exact (enabled_expire rs.ipset fam k).trans h.ipset

theorem rulesetRun_on (rx : Bytes → Bytes → Bool) (h : On rs) (ops : List RulesetOp) :
    On (rulesetRun rx rs ops) ∧ (rulesetRun rx rs ops).group = rs.group := by
  induction ops generalizing rs with
  | nil => exact ⟨h, rfl⟩
  | cons op ops ih =>
    obtain ⟨hon, hgroup⟩ := rulesetStep_on rx h op
    obtain ⟨hon', hgroup'⟩ := ih hon
    exact ⟨hon', hgroup'.trans hgroup⟩

theorem lookup_run_sync (h : On rs) (pre : List RulesetOp) (cache : Cache) (now : Int)
    {fam : Family} {k : NetKey fam} (hk : SubnetKey rs.group fam k) :
    ((rulesetRun rx rs (pre ++ [.sync cache now])).ipset.get fam).lookup k = some 0 ↔
      Unchallenged rx rs.group cache now fam ((rulesetRun rx rs pre).ipset.get fam) k := by
  obtain ⟨hon, hgroup⟩ := rulesetRun_on rx h pre
  have hlast : rulesetRun rx rs (pre ++ [.sync cache now]) =
      rulesetSync rx (rulesetRun rx rs pre) cache now := by
    simp only [rulesetRun, List.foldl_append, List.foldl_cons, List.foldl_nil, rulesetStep]
  rw [hlast, get_rulesetSync rx _ cache now hon.ruleset hon.group hon.ipset, hgroup]
  exact lookup_sync_permanent_iff _ hon.ipset hk

end Run

/-- In every run of an enabled group, the entries of its subnet rules are permanent after each sync
if and only if the cache that a sync reads challenges none of them. -/
theorem rulesetRun_permanent_iff (rx : Bytes → Bytes → Bool) (rs : Ruleset) (ops : List RulesetOp)
    (h : On rs) :
    (∀ pre cache now post, ops = pre ++ .sync cache now :: post → ∀ fam k,
      SubnetKey rs.group fam k →
        ((rulesetRun rx rs (pre ++ [.sync cache now])).ipset.get fam).lookup k = some 0) ↔
    ∀ pre cache now post, ops = pre ++ .sync cache now :: post → ∀ fam k,
      SubnetKey rs.group fam k →
        Unchallenged rx rs.group cache now fam ((rulesetRun rx rs pre).ipset.get fam) k := by
  constructor
  · intro hperm pre cache now post hops fam k hk
    exact (lookup_run_sync h pre cache now hk).mp (hperm pre cache now post hops fam k hk)
  · intro hfree pre cache now post hops fam k hk
    exact (lookup_run_sync h pre cache now hk).mpr (hfree pre cache now post hops fam k hk)

def subnetAndDomain (subnet domain : Bytes) : Ruleset where
  group := ⟨⟨1, 0, 0, 0⟩, str "g", str "#ffffff", str "br0", true,
    .exact [⟨⟨2, 0, 0, 0⟩, str "r", str "subnet", subnet, true⟩,
      ⟨⟨3, 0, 0, 0⟩, str "s", str "domain", domain, true⟩]⟩
  enabled := true
  ipset := ⟨true, ∅, ∅⟩

def cachedHost (domain addr : Bytes) : Cache := ⟨[⟨domain, [⟨addr, 60⟩], none⟩]⟩

theorem subnetKey_subnetAndDomain {fam : Family} {k : NetKey fam}
    (h : SubnetKey (subnetAndDomain (str "10.0.0.0/8") (str "a.com")).group fam k) :
    k.plen ≠ fam.max := by
  obtain ⟨rule, hrule, -, htype, p, hp, hs⟩ := h
  have hmem : rule = ⟨⟨2, 0, 0, 0⟩, str "r", str "subnet", str "10.0.0.0/8", true⟩ ∨
      rule = ⟨⟨3, 0, 0, 0⟩, str "s", str "domain", str "a.com", true⟩ := by
    simpa [subnetAndDomain, Config.CArray.exact] using hrule
  rcases hmem with rfl | rfl
  · cases fam with
    | v6 => exact absurd htype (by decide)
    | v4 =>
      have height : parseRule .v4 (str "10.0.0.0/8") = some ⟨[10, 0, 0, 0], 8⟩ := by decide +kernel
      rw [height] at hp
      cases hp
      rw [if_neg (by decide)] at hs
      have hcidr : k.plen = 8 := congrArg Subnet.cidr hs
      rw [hcidr]
      decide
  · cases fam <;> exact absurd htype (by decide)

/-- A network that holds the address of a matched name stays permanent. -/
theorem rulesetRun_permanent_network :
    ((rulesetRun (fun _ _ => false) (subnetAndDomain (str "10.0.0.0/8") (str "a.com"))
      [.sync (cachedHost (str "a.com") [10, 1, 2, 3]) 0, .add .v4 [10, 1, 2, 3] 300,
        .sync (cachedHost (str "a.com") [10, 1, 2, 3]) 0]).ipset.get .v4).lookup
      ⟨[10, 0, 0, 0], 8, by decide, by decide⟩ = some 0 := by
  refine (rulesetRun_permanent_iff (fun _ _ => false)
    (subnetAndDomain (str "10.0.0.0/8") (str "a.com")) _ ⟨rfl, rfl, rfl⟩).mpr ?_
    [.sync (cachedHost (str "a.com") [10, 1, 2, 3]) 0, .add .v4 [10, 1, 2, 3] 300]
    (cachedHost (str "a.com") [10, 1, 2, 3]) 0 [] rfl .v4 _ ?_
  · intro pre cache now post hops fam k hk
    exact unchallenged_of_plen_ne (subnetKey_subnetAndDomain hk) _
  · refine ⟨_, List.mem_cons_self .., rfl, rfl, ⟨[10, 0, 0, 0], 8⟩, by decide +kernel, ?_⟩
    rw [if_neg (by decide)]
    rfl

/-- A configured host that is also the address of a matched name ends with the lifetime of the
cache. -/
theorem subnet_loses_permanence :
    ¬ ∀ (rx : Bytes → Bytes → Bool) (rs : Ruleset) (ops : List RulesetOp), On rs →
      ∀ pre cache now post, ops = pre ++ .sync cache now :: post → ∀ fam k,
        SubnetKey rs.group fam k →
          ((rulesetRun rx rs (pre ++ [.sync cache now])).ipset.get fam).lookup k = some 0 := by
  intro h
  have hperm := h (fun _ _ => false) (subnetAndDomain (str "1.2.3.4/32") (str "a.com"))
    [.sync (cachedHost (str "a.com") [1, 2, 3, 4]) 0] ⟨rfl, rfl, rfl⟩ []
    (cachedHost (str "a.com") [1, 2, 3, 4]) 0 [] rfl .v4 (.host .v4 [1, 2, 3, 4])
    ⟨_, List.mem_cons_self .., rfl, rfl, ⟨[1, 2, 3, 4], 32⟩, by decide +kernel, by
      rw [if_neg (by decide)]
      rfl⟩
  revert hperm
  decide +kernel

end MagiTrickle.Netfilter
