import MagiTrickle.Netfilter.Ruleset

/-!
# What a group wants in its sets

`SubnetOf` and `CachedBy` say which keys a rule asks for, without reference to
the order of the source's loops. `Want` is one request of those loops, and
`ruleWants` the requests of a rule in order; the list that
`sync_build_new_lists` leaves is the run of their upserts (`get_syncBuildNewLists`).
-/

namespace MagiTrickle.Netfilter

open MagiTrickle.Lib MagiTrickle.Rules MagiTrickle.DnsCache

/-! ## The desired keys -/

/-- The rule is an enabled subnet rule of the family and stands for the subnet `s`: its masked
prefix, or one of the two halves for a zero prefix. -/
def SubnetOf (fam : Family) (rule : Config.Rule) (s : Subnet) : Prop :=
  rule.enable = true ∧ rule.type = fam.ruleType ∧
    ∃ p, parseRule fam rule.rule = some p ∧ if p.cidr = 0 then s ∈ halves fam else s = p

/-- The rule is enabled and matches a known name that the cache resolves to the address `a`, which
lives for `remain` more seconds. -/
def CachedBy (rx : Bytes → Bytes → Bool) (cache : Cache) (now : Int) (fam : Family)
    (rule : Config.Rule) (a : Bytes) (remain : Int) : Prop :=
  rule.enable = true ∧ ∃ name ∈ cacheListKnownDomains cache,
    ruleMatcherMatch rx (ruleMatcherNew rule.type rule.rule) name = true ∧
    ∃ ca ∈ cacheGetAddresses cache name now,
      ca.addr = a ∧ a.length = fam.iplen ∧ ca.deadline - now = remain

theorem parsePrefix_le {max : Nat} {rule host : Bytes} {ones : Nat}
    (h : parsePrefix max rule = some (host, ones)) : ones ≤ max := by
  unfold parsePrefix at h
  split at h
  · cases h
  · dsimp only at h
    split at h
    · cases h; exact le_rfl
    · split at h
      · split at h
        · next hb => cases h; omega
        · cases h
      · cases h

theorem parseRule_cidr_le {fam : Family} {rule : Bytes} {s : Subnet}
    (h : parseRule fam rule = some s) : s.cidr ≤ fam.max := by
  cases fam with
  | v4 =>
    simp only [parseRule, parseIpv4Rule, Option.bind_eq_bind, Option.bind_eq_some_iff,
      Option.pure_def, Option.some.injEq] at h
    obtain ⟨⟨host, ones⟩, hp, a, -, rfl⟩ := h
    exact parsePrefix_le hp
  | v6 =>
    simp only [parseRule, parseIpv6Rule, Option.bind_eq_bind, Option.bind_eq_some_iff,
      Option.pure_def, Option.some.injEq] at h
    obtain ⟨⟨host, ones⟩, hp, a, -, rfl⟩ := h
    exact parsePrefix_le hp

/-- The kernel accepts every desired subnet, under its own prefix length. -/
theorem SubnetOf.cidr_bounds {fam : Family} {rule : Config.Rule} {s : Subnet}
    (h : SubnetOf fam rule s) : 0 < s.cidr ∧ s.cidr ≤ fam.max := by
  obtain ⟨-, -, p, hp, hs⟩ := h
  split at hs
  · have : s.cidr = 1 := by
      simp only [halves, List.mem_cons, List.not_mem_nil, or_false] at hs
      rcases hs with rfl | rfl <;> rfl
    have := fam.max_pos
    omega
  · next h0 =>
    subst hs
    exact ⟨Nat.pos_of_ne_zero h0, parseRule_cidr_le hp⟩

/-! ## Requests in the order of the source -/

/-- One request: a subnet for good, or a host for its remaining lifetime. -/
inductive Want where
  | subnet (s : Subnet)
  | host (a : Bytes) (remain : Int)
  deriving DecidableEq, Repr

namespace Want

/-- The key of the request in the list of wanted entries: hosts have `cidr` zero there. -/
def key : Want → Subnet
  | subnet s => s
  | host a _ => ⟨a, 0⟩

def upsert : Want → Upsert Subnet NewEntry
  | subnet s => ⟨s, ⟨s, false, 0⟩, newUpdate false 0 false⟩
  | host a remain => ⟨⟨a, 0⟩, ⟨⟨a, 0⟩, true, ttlOf remain⟩, newUpdate true (ttlOf remain) true⟩

@[simp] theorem upsert_k (w : Want) : w.upsert.k = w.key := by cases w <;> rfl

theorem newUpdate_subnet (hasTtl : Bool) (ttl : Nat) (improveOnly : Bool) (e : NewEntry) :
    (newUpdate hasTtl ttl improveOnly e).subnet = e.subnet := by
  unfold newUpdate
  split <;> rfl

theorem keyed_upsert (w : Want) : w.upsert.Keyed NewEntry.subnet := by
  cases w <;> exact ⟨rfl, fun e he => (newUpdate_subnet ..).trans he⟩

end Want

def addrWants (fam : Family) (now : Int) (a : CacheAddr) : List Want :=
  if a.deadline - now ≤ 0 then []
  else if a.addr.length = fam.iplen then [.host a.addr (a.deadline - now)] else []

def subnetWants (fam : Family) (rule : Bytes) : List Want :=
  match parseRule fam rule with
  | none => []
  | some s => if s.cidr = 0 then (halves fam).map .subnet else [.subnet s]

def nameWants (rx : Bytes → Bytes → Bool) (cache : Cache) (now : Int) (fam : Family)
    (rule : Config.Rule) : List Want :=
  (cacheListKnownDomains cache).flatMap fun name =>
    if ruleMatcherMatch rx (ruleMatcherNew rule.type rule.rule) name then
      (cacheGetAddresses cache name now).flatMap (addrWants fam now)
    else []

def ruleWants (rx : Bytes → Bytes → Bool) (cache : Cache) (now : Int) (fam : Family)
    (rule : Config.Rule) : List Want :=
  if ¬ rule.enable then []
  else if rule.type = str "subnet" then (if fam = .v4 then subnetWants .v4 rule.rule else [])
  else if rule.type = str "subnet6" then (if fam = .v6 then subnetWants .v6 rule.rule else [])
  else nameWants rx cache now fam rule

def runWants (ws : List Want) (l : List NewEntry) : List NewEntry :=
  Upsert.run NewEntry.subnet (ws.map Want.upsert) l

section Build

variable {rx : Bytes → Bytes → Bool} {cache : Cache} {now : Int} {fam : Family}

theorem runWants_append (ws vs : List Want) (l : List NewEntry) :
    runWants (ws ++ vs) l = runWants vs (runWants ws l) := by
  simp [runWants, Upsert.run_append]

theorem get_foldl {β : Type} {f : NewLists → β → NewLists} {ws : β → List Want}
    (h : ∀ ls b, (f ls b).get fam = runWants (ws b) (ls.get fam)) (bs : List β) (ls : NewLists) :
    (bs.foldl f ls).get fam = runWants (bs.flatMap ws) (ls.get fam) := by
  induction bs generalizing ls with
  | nil => rfl
  | cons b bs ih => rw [List.foldl_cons, ih, h, List.flatMap_cons, runWants_append]

theorem get_upsert (ls : NewLists) (fam' : Family) (key : Subnet) (hasTtl : Bool) (ttl : Nat)
    (improveOnly : Bool) :
    (ls.upsert fam' key hasTtl ttl improveOnly).get fam =
      if fam = fam' then newUpsert (ls.get fam) key hasTtl ttl improveOnly else ls.get fam := by
  cases fam <;> cases fam' <;> rfl

theorem get_syncAddr (ls : NewLists) (a : CacheAddr) :
    (syncAddr now ls a).get fam = runWants (addrWants fam now a) (ls.get fam) := by
  unfold syncAddr addrWants
  dsimp only
  split
  · rfl
  · cases fam with
    | v4 =>
      by_cases h4 : a.addr.length = 4
      · simp [h4, get_upsert, Family.iplen, runWants, Want.upsert, newUpsert, Upsert.run]
      · by_cases h6 : a.addr.length = 16
        · simp [h6, get_upsert, Family.iplen, runWants]
        · simp [h4, h6, Family.iplen, runWants]
    | v6 =>
      by_cases h4 : a.addr.length = 4
      · simp [h4, get_upsert, Family.iplen, runWants]
      · by_cases h6 : a.addr.length = 16
        · simp [h6, get_upsert, Family.iplen, runWants, Want.upsert, newUpsert, Upsert.run]
        · simp [h4, h6, Family.iplen, runWants]

theorem get_syncSubnet_self (ls : NewLists) (rule : Bytes) :
    (syncSubnet fam ls rule).get fam = runWants (subnetWants fam rule) (ls.get fam) := by
  unfold syncSubnet subnetWants
  cases parseRule fam rule with
  | none => rfl
  | some s =>
    dsimp only
    split
    · simp [halves, get_upsert, runWants, Want.upsert, newUpsert, Upsert.run]
    · simp [get_upsert, runWants, Want.upsert, newUpsert, Upsert.run]

theorem get_syncSubnet_ne {fam' : Family} (h : fam ≠ fam') (ls : NewLists) (rule : Bytes) :
    (syncSubnet fam' ls rule).get fam = ls.get fam := by
  unfold syncSubnet
  cases parseRule fam' rule with
  | none => rfl
  | some s =>
    dsimp only
    split
    · simp [halves, get_upsert, h]
    · simp [get_upsert, h]

theorem get_syncName (ls : NewLists) (rule : Config.Rule) :
    (syncName rx cache now ls rule).get fam =
      runWants (nameWants rx cache now fam rule) (ls.get fam) := by
  unfold syncName nameWants
  refine get_foldl (fun ls name => ?_) _ _
  split
  · exact get_foldl (fun ls a => get_syncAddr ls a) _ _
  · rfl

theorem get_syncRule (ls : NewLists) (rule : Config.Rule) :
    (syncRule rx cache now ls rule).get fam =
      runWants (ruleWants rx cache now fam rule) (ls.get fam) := by
  unfold syncRule ruleWants
  split
  · rfl
  · split
    · split
      · next h => subst h; exact get_syncSubnet_self ..
      · next h => exact get_syncSubnet_ne h ..
    · split
      · split
        · next h => subst h; exact get_syncSubnet_self ..
        · next h => exact get_syncSubnet_ne h ..
      · exact get_syncName ..

/-- The built list is the run of all the rules' requests. -/
theorem get_syncBuildNewLists (group : Config.Group) :
    (syncBuildNewLists rx group cache now).get fam =
      runWants (group.rules.items.flatMap (ruleWants rx cache now fam)) [] := by
  unfold syncBuildNewLists
  rw [get_foldl fun ls rule => get_syncRule ls rule]
  cases fam <;> rfl

/-- An entry with a lifetime is what some request for a host asks for. -/
theorem host_of_mem_runWants {all ws : List Want} (hws : ∀ w ∈ ws, w ∈ all) {l : List NewEntry}
    (hl : ∀ e ∈ l, e.hasTtl = true →
      ∃ a r, .host a r ∈ all ∧ e.subnet = ⟨a, 0⟩ ∧ e.ttl = ttlOf r) :
    ∀ e ∈ runWants ws l, e.hasTtl = true →
      ∃ a r, .host a r ∈ all ∧ e.subnet = ⟨a, 0⟩ ∧ e.ttl = ttlOf r := by
  induction ws generalizing l with
  | nil => exact hl
  | cons w ws ih =>
    refine ih (fun x hx => hws x (List.mem_cons_of_mem _ hx)) fun e he ht => ?_
    have hw := hws w (List.mem_cons_self ..)
    rcases Upsert.mem_upsert he with he | ⟨e', he', hk, rfl⟩ | rfl
    · exact hl e he ht
    · cases w with
      | subnet s => cases ht
      | host a r =>
        change (newUpdate true (ttlOf r) true e').hasTtl = true at ht
        show ∃ a' r', _ ∧ (newUpdate true (ttlOf r) true e').subnet = _ ∧
          (newUpdate true (ttlOf r) true e').ttl = _
        unfold newUpdate at ht ⊢
        split at ht
        · next hkeep =>
          rw [if_pos hkeep]
          exact hl e' he' ht
        · next hkeep =>
          rw [if_neg hkeep]
          exact ⟨a, r, hw, hk, rfl⟩
    · cases w with
      | subnet s => cases ht
      | host a r => exact ⟨a, r, hw, rfl, rfl⟩

/-! ## The requests are the desired keys -/

theorem mem_subnetWants {rule : Bytes} {w : Want} :
    w ∈ subnetWants fam rule ↔ ∃ s, w = .subnet s ∧
      ∃ p, parseRule fam rule = some p ∧ if p.cidr = 0 then s ∈ halves fam else s = p := by
  unfold subnetWants
  cases parseRule fam rule with
  | none => simp
  | some p =>
    dsimp only
    split
    · next h =>
      simp only [List.mem_map, Option.some.injEq, exists_eq_left', h, if_true]
      exact exists_congr fun s => ⟨fun ⟨hs, hw⟩ => ⟨hw.symm, hs⟩, fun ⟨hw, hs⟩ => ⟨hs, hw.symm⟩⟩
    · next h => simp [h]

theorem mem_addrWants {a : CacheAddr} {w : Want} (h : now < a.deadline) :
    w ∈ addrWants fam now a ↔ a.addr.length = fam.iplen ∧ w = .host a.addr (a.deadline - now) := by
  unfold addrWants
  rw [if_neg (by omega)]
  split <;> simp_all

theorem mem_nameWants {rule : Config.Rule} {w : Want} :
    w ∈ nameWants rx cache now fam rule ↔ ∃ name ∈ cacheListKnownDomains cache,
      ruleMatcherMatch rx (ruleMatcherNew rule.type rule.rule) name = true ∧
      ∃ ca ∈ cacheGetAddresses cache name now,
        ca.addr.length = fam.iplen ∧ w = .host ca.addr (ca.deadline - now) := by
  unfold nameWants
  rw [List.mem_flatMap]
  refine exists_congr fun name => and_congr_right fun _ => ?_
  split
  · next hm =>
    simp only [hm, true_and, List.mem_flatMap]
    exact exists_congr fun ca => and_congr_right fun hca =>
      mem_addrWants (deadline_of_mem_cacheGetAddresses hca)
  · next hm => simp [hm]

/-- A rule asks for a subnet exactly when it stands for it. -/
theorem subnet_mem_ruleWants {rule : Config.Rule} {s : Subnet} :
    .subnet s ∈ ruleWants rx cache now fam rule ↔ SubnetOf fam rule s := by
  unfold ruleWants SubnetOf
  by_cases he : rule.enable = true
  · simp only [he, not_true_eq_false, if_false, true_and]
    by_cases h4 : rule.type = str "subnet"
    · rw [if_pos h4, h4]
      cases fam with
      | v4 => simp [Family.ruleType, mem_subnetWants]
      | v6 =>
        have : ¬ str "subnet" = Family.v6.ruleType := by decide
        simp [this]
    · rw [if_neg h4]
      by_cases h6 : rule.type = str "subnet6"
      · rw [if_pos h6, h6]
        cases fam with
        | v6 => simp [Family.ruleType, mem_subnetWants]
        | v4 =>
          have : ¬ str "subnet6" = Family.v4.ruleType := by decide
          simp [this]
      · rw [if_neg h6]
        have : ¬ rule.type = fam.ruleType := by cases fam <;> assumption
        simp [mem_nameWants, this]
  · simp [he]

/-- A rule asks for a host exactly when it matches a name with that address. -/
theorem host_mem_ruleWants {rule : Config.Rule} {a : Bytes} {remain : Int} :
    .host a remain ∈ ruleWants rx cache now fam rule ↔
      CachedBy rx cache now fam rule a remain := by
  unfold ruleWants CachedBy
  -- the single-rule matcher never matches a subnet rule
  have never : ∀ t ∈ [str "subnet", str "subnet6"], ∀ name,
      ¬ ruleMatcherMatch rx (ruleMatcherNew t rule.rule) name = true := by
    intro t ht name
    have hk : kindOf t = .rkNever := by revert ht; revert t; decide
    simp [ruleMatcherMatch, ruleMatcherNew, hk]
  by_cases he : rule.enable = true
  · simp only [he, not_true_eq_false, if_false, true_and]
    split
    · next h4 =>
      rw [h4]
      have := never (str "subnet") (by simp)
      split <;> simp [mem_subnetWants, this]
    · split
      · next h6 =>
        rw [h6]
        have := never (str "subnet6") (by simp)
        split <;> simp [mem_subnetWants, this]
      · rw [mem_nameWants]
        refine exists_congr fun name => and_congr_right fun _ => and_congr_right fun _ =>
          exists_congr fun ca => and_congr_right fun _ => ?_
        simp only [Want.host.injEq]
        constructor
        · rintro ⟨hl, rfl, rfl⟩
          exact ⟨rfl, hl, rfl⟩
        · rintro ⟨rfl, hl, rfl⟩
          exact ⟨hl, rfl, rfl⟩
  · simp [he]

/-- A rule asks for subnets or for hosts, never for both. -/
theorem ruleWants_uniform {rule : Config.Rule} {s : Subnet} {a : Bytes} {remain : Int}
    (hs : .subnet s ∈ ruleWants rx cache now fam rule)
    (ha : .host a remain ∈ ruleWants rx cache now fam rule) : False := by
  obtain ⟨he, ht, -⟩ := subnet_mem_ruleWants.mp hs
  obtain ⟨-, name, -, hm, -⟩ := host_mem_ruleWants.mp ha
  have hk : kindOf rule.type = .rkNever := by rw [ht]; cases fam <;> decide
  simp [ruleMatcherMatch, ruleMatcherNew, hk] at hm

end Build

end MagiTrickle.Netfilter
