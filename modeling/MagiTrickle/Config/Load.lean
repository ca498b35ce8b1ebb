import MagiTrickle.Config.Arrays
import MagiTrickle.Config.Ids

/-!
# Loading a configuration (`config/yaml_load.c`)

The document is what libyaml and the field getters make of the file: for every
element of a sequence its fields, the rules that were read before an error, and
that error. The loader appends rules, groups and subscriptions one at a time;
the stores these appends make are returned with the result.
-/

namespace MagiTrickle.Config

/-- `is_hex_lower_or_upper`. -/
def isHexLowerOrUpper (c : UInt8) : Bool :=
  (48 ≤ c ∧ c ≤ 57) ∨ (97 ≤ c ∧ c ≤ 102) ∨ (65 ≤ c ∧ c ≤ 70)

/-- `mt_group_normalize_color`: `#rrggbb` in lower case, or white. -/
def normalizeColor : Bytes → Bytes
  | 35 :: ds =>
    if ds.length = 6 ∧ ds.all isHexLowerOrUpper then
      35 :: ds.map fun c => if 65 ≤ c ∧ c ≤ 70 then c - 65 + 97 else c
    else str "#ffffff"
  | _ => str "#ffffff"

/-- What `load_group` reads of one element. -/
structure GroupNode where
  id : Id
  name : Bytes
  color : Bytes
  iface : Bytes
  enable : Bool
  rules : List Rule
  err : Option Err

/-- What `load_subscription` reads of one element. -/
structure SubscriptionNode where
  id : Id
  name : Bytes
  iface : Bytes
  enable : Bool
  url : Bytes
  interval : Nat
  lastUpdate : Nat
  rules : List SubRule
  err : Option Err

/-- A configuration file: an error before the sections are reached, or the two sequences. `none`
is a key that is absent or null, an error one that is no sequence. -/
structure Doc where
  err : Option Err
  groups : Except Err (Option (List GroupNode))
  subscriptions : Except Err (Option (List SubscriptionNode))

/-- The part of `mt_config_t` that holds groups and subscriptions. -/
structure Config where
  groups : CArray Group
  groupsPresent : Bool
  subscriptions : CArray Subscription
  subscriptionsPresent : Bool

/-- `mt_config_init_defaults`. -/
def initDefaults : Config := ⟨.empty, false, .empty, false⟩

/-- The group `load_group` builds. -/
def GroupNode.group (n : GroupNode) : Group where
  id := n.id
  name := n.name
  color := normalizeColor n.color
  iface := n.iface
  enable := n.enable
  rules := CArray.empty.pushAll n.rules

/-- The subscription `load_subscription` builds. -/
def SubscriptionNode.subscription (n : SubscriptionNode) : Subscription where
  id := n.id
  name := n.name
  iface := n.iface
  enable := n.enable
  url := n.url
  interval := n.interval
  lastUpdate := n.lastUpdate
  lastCheck := 0
  rules := CArray.empty.pushAll n.rules

def loadGroups (a : CArray Group) : List GroupNode → List Store × Except Err (CArray Group)
  | [] => ([], .ok a)
  | n :: ns =>
    let st := (CArray.empty (α := Rule)).stores n.rules
    match n.err with
    | some e => (st, .error e)
    | none =>
      if groupIdsConflict a.items n.group then (st, .error .exist)
      else
        let r := loadGroups (a.push n.group) ns
        (st ++ a.store :: r.1, r.2)

def loadSubscriptions (a : CArray Subscription) :
    List SubscriptionNode → List Store × Except Err (CArray Subscription)
  | [] => ([], .ok a)
  | n :: ns =>
    let st := (CArray.empty (α := SubRule)).stores n.rules
    match n.err with
    | some e => (st, .error e)
    | none =>
      let r := loadSubscriptions (a.push n.subscription) ns
      (st ++ a.store :: r.1, r.2)

/-- The groups section: replaced when it is present. -/
def loadGroupsSection (cfg : Config) :
    Except Err (Option (List GroupNode)) → List Store × Except Err Config
  | .error e => ([], .error e)
  | .ok none => ([], .ok cfg)
  | .ok (some ns) =>
    let r := loadGroups (cfg.groups.mapItems fun _ => []) ns
    (r.1, r.2.map fun a => { cfg with groups := a, groupsPresent := true })

/-- The subscriptions section: replaced when it is present, cleared when not. -/
def loadSubscriptionsSection (cfg : Config) :
    Except Err (Option (List SubscriptionNode)) → List Store × Except Err Config
  | .error e => ([], .error e)
  | .ok none => ([], .ok { cfg with subscriptions := cfg.subscriptions.mapItems fun _ => [] })
  | .ok (some ns) =>
    let r := loadSubscriptions (cfg.subscriptions.mapItems fun _ => []) ns
    (r.1, r.2.map fun a => { cfg with subscriptions := a, subscriptionsPresent := true })

/-- `mt_config_load_buffer`. -/
def loadBuffer (cfg : Config) (doc : Doc) : List Store × Except Err Config :=
  match doc.err with
  | some e => ([], .error e)
  | none =>
    match loadGroupsSection cfg doc.groups with
    | (st, .error e) => (st, .error e)
    | (st, .ok cfg) =>
      let r := loadSubscriptionsSection cfg doc.subscriptions
      (st ++ r.1, r.2)

/-! ## What the loader leaves behind -/

/-- The arrays of a loaded configuration are grown ones. -/
structure Config.Grown (cfg : Config) : Prop where
  groups : cfg.groups.Grown
  rules : ∀ g ∈ cfg.groups.items, g.rules.Grown
  subscriptions : cfg.subscriptions.Grown

theorem grown_initDefaults : initDefaults.Grown where
  groups := CArray.grown_empty
  rules := fun _ hg => absurd hg List.not_mem_nil
  subscriptions := CArray.grown_empty

theorem inBounds_stores_empty {α : Type} (xs : List α) :
    ∀ s ∈ (CArray.empty (α := α)).stores xs, s.InBounds :=
  CArray.grown_empty.inBounds_stores xs

theorem CArray.Grown.inBounds_store {α : Type} {a : CArray α} (h : a.Grown) : a.store.InBounds :=
  (CArray.inBounds_store_iff h.fits).mpr h.not_stuck

theorem CArray.Grown.clear {α : Type} {a : CArray α} (h : a.Grown) :
    (a.mapItems fun _ => []).Grown :=
  h.of_le rfl (Nat.zero_le _)

theorem inBounds_append_cons {st st' : List Store} {s : Store} (hst : ∀ x ∈ st, x.InBounds)
    (hs : s.InBounds) (hst' : ∀ x ∈ st', x.InBounds) : ∀ x ∈ st ++ s :: st', x.InBounds := by
  intro x hx
  rcases List.mem_append.mp hx with hx | hx
  · exact hst x hx
  · rcases List.mem_cons.mp hx with rfl | hx
    · exact hs
    · exact hst' x hx

theorem loadGroups_grown (ns : List GroupNode) {a : CArray Group} (ha : a.Grown)
    (hr : ∀ g ∈ a.items, g.rules.Grown) :
    (∀ s ∈ (loadGroups a ns).1, s.InBounds) ∧
      ∀ b, (loadGroups a ns).2 = .ok b → b.Grown ∧ ∀ g ∈ b.items, g.rules.Grown := by
  induction ns generalizing a with
  | nil =>
    refine ⟨fun s hs => absurd hs List.not_mem_nil, fun b hb => ?_⟩
    cases hb
    exact ⟨ha, hr⟩
  | cons n ns ih =>
    have hnew : ∀ g ∈ (a.push n.group).items, g.rules.Grown := by
      intro g hg
      rcases List.mem_append.mp hg with hg | hg
      · exact hr g hg
      · rw [List.mem_singleton.mp hg]
        exact CArray.grown_empty.pushAll _
    unfold loadGroups
    split
    · exact ⟨inBounds_stores_empty _, fun b hb => by cases hb⟩
    · split
      · exact ⟨inBounds_stores_empty _, fun b hb => by cases hb⟩
      · obtain ⟨hst, hok⟩ := ih (ha.push n.group) hnew
        exact ⟨inBounds_append_cons (inBounds_stores_empty _) ha.inBounds_store hst, hok⟩

theorem loadSubscriptions_grown (ns : List SubscriptionNode) {a : CArray Subscription}
    (ha : a.Grown) :
    (∀ s ∈ (loadSubscriptions a ns).1, s.InBounds) ∧
      ∀ b, (loadSubscriptions a ns).2 = .ok b → b.Grown := by
  induction ns generalizing a with
  | nil =>
    refine ⟨fun s hs => absurd hs List.not_mem_nil, fun b hb => ?_⟩
    cases hb
    exact ha
  | cons n ns ih =>
    unfold loadSubscriptions
    split
    · exact ⟨inBounds_stores_empty _, fun b hb => by cases hb⟩
    · obtain ⟨hst, hok⟩ := ih (ha.push n.subscription)
      exact ⟨inBounds_append_cons (inBounds_stores_empty _) ha.inBounds_store hst, hok⟩

theorem loadGroupsSection_grown {cfg : Config} (h : cfg.Grown)
    (d : Except Err (Option (List GroupNode))) :
    (∀ s ∈ (loadGroupsSection cfg d).1, s.InBounds) ∧
      ∀ cfg', (loadGroupsSection cfg d).2 = .ok cfg' → cfg'.Grown := by
  have hnil : ∀ s ∈ ([] : List Store), s.InBounds := fun s hs => absurd hs List.not_mem_nil
  match d with
  | .error e => exact ⟨hnil, fun cfg' hc => by cases hc⟩
  | .ok none =>
    refine ⟨hnil, fun cfg' hc => ?_⟩
    cases hc
    exact h
  | .ok (some ns) =>
    obtain ⟨hst, hok⟩ := loadGroups_grown ns h.groups.clear
      fun g hg => absurd hg List.not_mem_nil
    refine ⟨hst, fun cfg' hc => ?_⟩
    simp only [loadGroupsSection] at hc
    cases hr : (loadGroups (cfg.groups.mapItems fun _ => []) ns).2 with
    | error e =>
      rw [hr] at hc
      cases hc
    | ok b =>
      rw [hr] at hc
      cases hc
      exact ⟨(hok b hr).1, (hok b hr).2, h.subscriptions⟩

theorem loadSubscriptionsSection_grown {cfg : Config} (h : cfg.Grown)
    (d : Except Err (Option (List SubscriptionNode))) :
    (∀ s ∈ (loadSubscriptionsSection cfg d).1, s.InBounds) ∧
      ∀ cfg', (loadSubscriptionsSection cfg d).2 = .ok cfg' → cfg'.Grown := by
  have hnil : ∀ s ∈ ([] : List Store), s.InBounds := fun s hs => absurd hs List.not_mem_nil
  match d with
  | .error e => exact ⟨hnil, fun cfg' hc => by cases hc⟩
  | .ok none =>
    refine ⟨hnil, fun cfg' hc => ?_⟩
    cases hc
    exact ⟨h.groups, h.rules, h.subscriptions.clear⟩
  | .ok (some ns) =>
    obtain ⟨hst, hok⟩ := loadSubscriptions_grown ns h.subscriptions.clear
    refine ⟨hst, fun cfg' hc => ?_⟩
    simp only [loadSubscriptionsSection] at hc
    cases hr : (loadSubscriptions (cfg.subscriptions.mapItems fun _ => []) ns).2 with
    | error e =>
      rw [hr] at hc
      cases hc
    | ok b =>
      rw [hr] at hc
      cases hc
      exact ⟨h.groups, h.rules, hok b hr⟩

/-- The loader never stores outside a block, and what it loads is grown. -/
theorem loadBuffer_grown {cfg : Config} (h : cfg.Grown) (doc : Doc) :
    (∀ s ∈ (loadBuffer cfg doc).1, s.InBounds) ∧
      ∀ cfg', (loadBuffer cfg doc).2 = .ok cfg' → cfg'.Grown := by
  unfold loadBuffer
  split
  · exact ⟨fun s hs => absurd hs List.not_mem_nil, fun cfg' hc => by cases hc⟩
  · obtain ⟨hst, hok⟩ := loadGroupsSection_grown h doc.groups
    split
    · next st e hr =>
      rw [hr] at hst
      exact ⟨hst, fun cfg' hc => by cases hc⟩
    · next st cfg₁ hr =>
      rw [hr] at hst hok
      obtain ⟨hst', hok'⟩ := loadSubscriptionsSection_grown (hok cfg₁ rfl) doc.subscriptions
      refine ⟨fun s hs => ?_, hok'⟩
      exact (List.mem_append.mp hs).elim (hst s) (hst' s)

end MagiTrickle.Config
