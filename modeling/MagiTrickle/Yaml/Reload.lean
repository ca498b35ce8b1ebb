import Mathlib.RingTheory.Int.Basic
import MagiTrickle.Yaml.RoundTrip

/-!
# A configuration that was loaded

The loader leaves nothing to be refused or brought into form when the
configuration is saved and loaded again, apart from durations that are still
below their unit: these are multiplied by it once more (`saved_loaded`).
-/

namespace MagiTrickle.Yaml

open Lib.Yaml
open Config (Rule Group SubRule Subscription GroupNode SubscriptionNode CArray UniqueIds
  normalizeColor toInt64 durationParse text_of_durationParse durationParse_ok_iff signed_range
  loadGroups loadSubscriptions groupIdsConflict)

/-! ## Numbers -/

def Int64 (t : Int) : Prop := -2 ^ 63 ≤ t ∧ t < 2 ^ 63

theorem int64_toInt64 (t : Int) : Int64 (toInt64 t) := by
  have hlo := @Int.le_bmod t (2 ^ 64) (by decide)
  have hhi := @Int.bmod_lt t (2 ^ 64) (by decide)
  unfold Int64 toInt64
  omega

theorem int64_durationParse {s : Bytes} {d : Int} (h : durationParse s = .ok d) : Int64 d := by
  obtain ⟨t, rfl⟩ := text_of_durationParse h
  obtain ⟨-, u, hu, -, rfl⟩ := (durationParse_ok_iff t d).mp h
  exact signed_range.mpr hu

theorem int64_normalize {unit t : Int} (h : Int64 t) : Int64 (normalize unit t) := by
  unfold normalize
  split
  · exact int64_toInt64 _
  · exact h

/-- A duration stays as it is if it is zero or has reached its unit: the unit is even, so that a
multiple of it is never the same word. -/
theorem normalize_eq_self_iff {unit t : Int} (hunit : Even unit) (h : Int64 t) :
    normalize unit t = t ↔ t = 0 ∨ unit ≤ t := by
  unfold normalize
  split
  · next hlt =>
    have hodd : Odd (unit - 1) := hunit.sub_odd odd_one
    have hcop : IsCoprime ((2 : Int) ^ 64) (unit - 1) := (Int.isCoprime_two_left.mpr hodd).pow_left
    unfold toInt64
    rw [Int.bmod_eq_iff (by decide)]
    refine ⟨fun ⟨_, _, hdvd⟩ => .inl ?_, fun ht => ?_⟩
    · have hmul : (2 : Int) ^ 64 ∣ t * (unit - 1) := by
        rw [show t * (unit - 1) = -(t - t * unit) by ring]
        exact (dvd_neg).mpr (by exact_mod_cast hdvd)
      obtain ⟨q, hq⟩ := hcop.dvd_of_dvd_mul_right hmul
      obtain ⟨hlo, hhi⟩ := h
      omega
    · have hzero : t = 0 := by omega
      subst hzero
      exact ⟨by decide, by decide, by simp⟩
  · next hge => exact iff_of_true rfl (.inr (by omega))

/-! ## Getters -/

theorem getUint64_le {n : Option Node} {max v : Nat} (h : getUint64 n max = .ok (some v)) :
    v ≤ max := by
  unfold getUint64 at h
  split at h
  · cases h
  · split at h
    · split at h
      · cases h
      · next hle =>
        cases h
        omega
    · cases h
  · cases h

theorem getD_getUint64_le {n : Option Node} {max : Nat} {v : Option Nat}
    (h : getUint64 n max = .ok v) : v.getD 0 ≤ max := by
  cases v with
  | none => exact Nat.zero_le _
  | some v => exact getUint64_le h

theorem int64_getDuration {n : Option Node} {d : Int} (h : getDuration n = .ok (some d)) :
    Int64 d := by
  unfold getDuration at h
  split at h
  · cases h
  · split at h
    · cases h
      exact int64_toInt64 _
    · split at h
      · next hparse =>
        cases h
        exact int64_durationParse hparse
      · cases h
    · cases h
  · cases h

theorem int64_duration_field {n : Option Node} {t : Option Int} {unit d : Int}
    (h : getDuration n = .ok t) (hd : Int64 d) : Int64 ((t.map (normalize unit)).getD d) := by
  cases t with
  | none => exact hd
  | some t => exact int64_normalize (int64_getDuration h)

theorem getSection_ok {α : Type} {n : Option Node} {dst r : α} {load : Node → Except Err α}
    (h : getSection n dst load = .ok r) : r = dst ∨ ∃ m, load m = .ok r := by
  unfold getSection at h
  split at h
  · cases h
    exact .inl rfl
  · exact .inr ⟨_, h⟩
  · cases h

/-! ## Settings -/

theorem int64_loadDnsProxy {n : Option Node} {c r : DnsProxy} (h : loadDnsProxy n c = .ok r)
    (hc : Int64 c.timeout) : Int64 r.timeout := by
  rcases getSection_ok h with rfl | ⟨m, h⟩
  · exact hc
  · obtain ⟨upstream, -, h⟩ := exists_of_bind_ok h
    obtain ⟨host, -, h⟩ := exists_of_bind_ok h
    obtain ⟨remap, -, h⟩ := exists_of_bind_ok h
    obtain ⟨ptr, -, h⟩ := exists_of_bind_ok h
    obtain ⟨aaaa, -, h⟩ := exists_of_bind_ok h
    obtain ⟨idle, -, h⟩ := exists_of_bind_ok h
    obtain ⟨conc, -, h⟩ := exists_of_bind_ok h
    obtain ⟨timeout, htimeout, h⟩ := exists_of_bind_ok h
    cases h
    exact int64_duration_field htimeout hc

theorem int64_loadNetfilter {n : Option Node} {c r : Netfilter} (h : loadNetfilter n c = .ok r)
    (hc : Int64 c.additionalTtl) : Int64 r.additionalTtl := by
  rcases getSection_ok h with rfl | ⟨m, h⟩
  · exact hc
  · obtain ⟨chain, -, h⟩ := exists_of_bind_ok h
    obtain ⟨⟨table, ttl⟩, hset, h⟩ := exists_of_bind_ok h
    obtain ⟨ip4, -, h⟩ := exists_of_bind_ok h
    obtain ⟨ip6, -, h⟩ := exists_of_bind_ok h
    obtain ⟨idx, -, h⟩ := exists_of_bind_ok h
    cases h
    rcases getSection_ok hset with hset | ⟨m, hset⟩
    · cases hset
      exact hc
    · obtain ⟨table', -, hset⟩ := exists_of_bind_ok hset
      obtain ⟨ttl', httl, hset⟩ := exists_of_bind_ok hset
      cases hset
      exact int64_duration_field httl hc

def AppConfig.Int64 (a : AppConfig) : Prop :=
  Yaml.Int64 a.dnsProxy.timeout ∧ Yaml.Int64 a.netfilter.additionalTtl

theorem int64_loadApp {n : Option Node} {c r : AppConfig} (h : loadApp n c = .ok r)
    (hc : c.Int64) : r.Int64 := by
  rcases getSection_ok h with rfl | ⟨m, h⟩
  · exact hc
  · obtain ⟨web, -, h⟩ := exists_of_bind_ok h
    obtain ⟨dns, hdns, h⟩ := exists_of_bind_ok h
    obtain ⟨net, hnet, h⟩ := exists_of_bind_ok h
    obtain ⟨link, -, h⟩ := exists_of_bind_ok h
    obtain ⟨showAll, -, h⟩ := exists_of_bind_ok h
    obtain ⟨level, -, h⟩ := exists_of_bind_ok h
    cases h
    exact ⟨int64_loadDnsProxy hdns hc.1, int64_loadNetfilter hnet hc.2⟩

/-! ## Groups and subscriptions -/

theorem reloaded_group (n : GroupNode) : n.group.reloaded = n.group := by
  unfold Group.reloaded GroupNode.group
  rw [Config.normalizeColor_idem, CArray.items_pushAll]
  rfl

theorem reloaded_subscription (n : SubscriptionNode) :
    n.subscription.reloaded = n.subscription := by
  unfold Subscription.reloaded SubscriptionNode.subscription
  rw [CArray.items_pushAll]
  rfl

theorem loadGroups_ok {ns : List GroupNode} {a b : CArray Group}
    (h : (loadGroups a ns).2 = .ok b) :
    b = a.pushAll (ns.map GroupNode.group) ∧ (UniqueIds a.items → UniqueIds b.items) := by
  induction ns generalizing a with
  | nil =>
    cases h
    exact ⟨rfl, id⟩
  | cons n ns ih =>
    rw [loadGroups] at h
    split at h
    · cases h
    · split at h
      · cases h
      · next hconflict =>
        obtain ⟨hb, hunique⟩ := ih h
        refine ⟨hb, fun ha => hunique ?_⟩
        exact Config.uniqueIds_append_singleton.mpr ⟨ha, Bool.eq_false_iff.mpr hconflict⟩

theorem loadSubscriptions_ok {ns : List SubscriptionNode} {a b : CArray Subscription}
    (h : (loadSubscriptions a ns).2 = .ok b) :
    b = a.pushAll (ns.map SubscriptionNode.subscription) := by
  induction ns generalizing a with
  | nil =>
    cases h
    rfl
  | cons n ns ih =>
    rw [loadSubscriptions] at h
    split at h
    · cases h
    · exact ih h

theorem loadSubscription_words {n : Node} (h : (loadSubscription n).err = none) :
    (loadSubscription n).interval < 2 ^ 32 ∧ (loadSubscription n).lastUpdate < 2 ^ 32 := by
  unfold loadSubscription at h ⊢
  cases hfields : subscriptionFields n with
  | error e =>
    rw [hfields] at h
    cases h
  | ok s =>
    obtain ⟨-, -, hs⟩ := exists_of_bind_ok hfields
    obtain ⟨id, -, hs⟩ := exists_of_bind_ok hs
    obtain ⟨name, -, hs⟩ := exists_of_bind_ok hs
    obtain ⟨iface, -, hs⟩ := exists_of_bind_ok hs
    obtain ⟨enable, -, hs⟩ := exists_of_bind_ok hs
    obtain ⟨url, -, hs⟩ := exists_of_bind_ok hs
    obtain ⟨interval, hinterval, hs⟩ := exists_of_bind_ok hs
    obtain ⟨lastUpdate, hlast, hs⟩ := exists_of_bind_ok hs
    cases hs
    have hint := getD_getUint64_le hinterval
    have hupd := getD_getUint64_le hlast
    exact ⟨by show interval.getD 0 < _; omega, by show lastUpdate.getD 0 < _; omega⟩

/-- Groups and subscriptions as the loader leaves them. -/
structure Loaded (d : Config.Config) : Prop where
  groups : ∃ gs, d.groups = CArray.empty.pushAll gs ∧ UniqueIds gs ∧ ∀ g ∈ gs, g.reloaded = g
  subscriptions : ∃ ss, d.subscriptions = CArray.empty.pushAll ss ∧
    ∀ s ∈ ss, s.reloaded = s ∧ s.interval < 2 ^ 32 ∧ s.lastUpdate < 2 ^ 32

/-- What the loader reads of the sequences of the root. -/
theorem rootSequence_ok {α : Type} {n : Option Node} {load : Node → α} {ns : Option (List α)}
    (h : rootSequence n load = .ok ns) : ∃ items : List Node, ns.getD [] = items.map load := by
  unfold rootSequence at h
  split at h
  · cases h
    exact ⟨[], rfl⟩
  · cases h
    exact ⟨_, rfl⟩
  · cases h

theorem loadSubscriptions_words {items : List Node} {a b : CArray Subscription}
    (h : (loadSubscriptions a (items.map loadSubscription)).2 = .ok b) :
    ∀ s ∈ (items.map loadSubscription).map SubscriptionNode.subscription,
      s.reloaded = s ∧ s.interval < 2 ^ 32 ∧ s.lastUpdate < 2 ^ 32 := by
  induction items generalizing a with
  | nil => exact fun s hs => absurd hs List.not_mem_nil
  | cons n items ih =>
    rw [List.map_cons, loadSubscriptions] at h
    split at h
    · cases h
    · next herr =>
      intro s hs
      rcases List.mem_cons.mp hs with rfl | hs
      · exact ⟨reloaded_subscription _, loadSubscription_words herr⟩
      · exact ih h s hs

theorem Loaded.loadBuffer {gs ss : Option Node} {d : Config.Config}
    (h : (Config.loadBuffer Config.initDefaults ⟨none, rootSequence gs loadGroup,
      rootSequence ss loadSubscription⟩).2 = .ok d) : Loaded d := by
  have hnil : UniqueIds [] := ⟨List.nodup_nil, fun g hg => absurd hg List.not_mem_nil⟩
  have hgroups {cfg : Config.Config}
      (hg : (Config.loadGroupsSection Config.initDefaults (rootSequence gs loadGroup)).2 =
        .ok cfg) :
      (∃ gs, cfg.groups = CArray.empty.pushAll gs ∧ UniqueIds gs ∧ ∀ g ∈ gs, g.reloaded = g) ∧
        cfg.subscriptions = .empty := by
    unfold Config.loadGroupsSection at hg
    split at hg
    · cases hg
    · cases hg
      exact ⟨⟨[], rfl, hnil, fun g hg => absurd hg List.not_mem_nil⟩, rfl⟩
    · next ns hns =>
      dsimp only at hg
      cases hl : (loadGroups (Config.initDefaults.groups.mapItems fun _ => []) ns).2 with
      | error e =>
        rw [hl] at hg
        cases hg
      | ok b =>
        rw [hl] at hg
        cases hg
        obtain ⟨hb, hunique⟩ := loadGroups_ok hl
        have hitems : b.items = ns.map GroupNode.group := by
          rw [hb, CArray.items_pushAll]
          rfl
        refine ⟨⟨_, hb, hitems ▸ hunique hnil, ?_⟩, rfl⟩
        exact List.forall_mem_map.mpr fun n _ => reloaded_group n
  unfold Config.loadBuffer at h
  dsimp only at h
  cases hg : Config.loadGroupsSection Config.initDefaults (rootSequence gs loadGroup) with
  | mk st r =>
    rw [hg] at h
    cases r with
    | error e => cases h
    | ok cfg =>
      obtain ⟨hform, hempty⟩ := hgroups (congrArg Prod.snd hg)
      dsimp only at h
      unfold Config.loadSubscriptionsSection at h
      split at h
      · cases h
      · cases h
        refine ⟨hform, [], ?_, fun s hs => absurd hs List.not_mem_nil⟩
        show (cfg.subscriptions.mapItems fun _ => []) = _
        rw [hempty]
        rfl
      · next ns hns =>
        dsimp only at h
        rw [hempty] at h
        obtain ⟨items, hitems⟩ := rootSequence_ok hns
        cases hitems
        cases hl : (loadSubscriptions (CArray.empty.mapItems fun _ => [])
            (items.map loadSubscription)).2 with
        | error e =>
          rw [hl] at h
          cases h
        | ok b =>
          rw [hl] at h
          cases h
          exact ⟨hform, _, loadSubscriptions_ok hl, loadSubscriptions_words hl⟩

theorem Loaded.reloaded {c : Settings} (h : Loaded c.data) :
    c.reloaded.data = { c.data with groupsPresent := true, subscriptionsPresent := true } := by
  obtain ⟨gs, hgs, -, hg⟩ := h.groups
  obtain ⟨ss, hss, hs⟩ := h.subscriptions
  have hgroups : c.data.groups.items.map Group.reloaded = gs := by
    rw [hgs, CArray.items_pushAll]
    exact (List.map_congr_left hg).trans (List.map_id' gs)
  have hsubs : c.data.subscriptions.items.map Subscription.reloaded = ss := by
    rw [hss, CArray.items_pushAll]
    exact (List.map_congr_left fun s h => (hs s h).1).trans (List.map_id' ss)
  unfold Settings.reloaded
  dsimp only
  rw [hgroups, hsubs, hgs, hss]

/-! ## Loaded, saved and loaded -/

theorem int64_defaults : defaultAppConfig.Int64 :=
  ⟨⟨by decide, by decide⟩, ⟨by decide, by decide⟩⟩

/-- The part of `loadDocument` behind the check of the root. -/
theorem loadDocument_fields {root : Option Node} {c : Settings}
    (h : loadDocument initDefaults root = .ok c) :
    loadApp (root.bind fun n => n.get (str "app")) defaultAppConfig = .ok c.app ∧
      (Config.loadBuffer Config.initDefaults
        ⟨none, rootSequence (root.bind fun n => n.get (str "groups")) loadGroup,
          rootSequence (root.bind fun n => n.get (str "subscriptions")) loadSubscription⟩).2 =
        .ok c.data := by
  unfold loadDocument at h
  dsimp only at h
  have hrest : ∀ {version : Bytes} {app : Except Err AppConfig} {data : Except Err Config.Config},
      (if (!(str "0.").isPrefixOf version) = true then (throw Err.state : Except Err Settings)
        else do
          let a ← app
          let d ← data
          return ⟨a, d⟩) = .ok c → app = .ok c.app ∧ data = .ok c.data := by
    intro version app data h
    split at h
    · cases h
    · obtain ⟨a, ha, h⟩ := exists_of_bind_ok h
      obtain ⟨d, hd, h⟩ := exists_of_bind_ok h
      cases h
      exact ⟨ha, hd⟩
  cases root with
  | none =>
    obtain ⟨version, -, h⟩ := exists_of_bind_ok h
    exact hrest h
  | some n =>
    obtain ⟨-, -, h⟩ := exists_of_bind_ok h
    obtain ⟨version, -, h⟩ := exists_of_bind_ok h
    exact hrest h

theorem loadDocument_ok {root : Option Node} {c : Settings}
    (h : loadDocument initDefaults root = .ok c) : c.app.Int64 ∧ Loaded c.data :=
  have hfields := loadDocument_fields h
  ⟨int64_loadApp hfields.1 int64_defaults, .loadBuffer hfields.2⟩

theorem Loaded.uniqueIds {d : Config.Config} (h : Loaded d) : UniqueIds d.groups.items := by
  obtain ⟨gs, hgs, hunique, -⟩ := h.groups
  rw [hgs, CArray.items_pushAll]
  exact hunique

theorem Loaded.words {c : Settings} (h : Loaded c.data) (happ : c.app.Int64) : c.Words where
  timeout := happ.1
  additionalTtl := happ.2
  subscriptions := by
    obtain ⟨ss, hss, hwords⟩ := h.subscriptions
    rw [hss, CArray.items_pushAll]
    exact fun s hs => (hwords s hs).2

theorem reloaded_app_iff {a : AppConfig} (h : a.Int64) :
    a.reloaded = a ↔ (a.dnsProxy.timeout = 0 ∨ durationMs ≤ a.dnsProxy.timeout) ∧
      (a.netfilter.additionalTtl = 0 ∨ durationSec ≤ a.netfilter.additionalTtl) := by
  have hms : Even durationMs := ⟨500000, rfl⟩
  have hsec : Even durationSec := ⟨500000000, rfl⟩
  rw [← normalize_eq_self_iff hms h.1, ← normalize_eq_self_iff hsec h.2]
  refine ⟨fun heq => ?_, fun ⟨htimeout, httl⟩ => ?_⟩
  · exact ⟨congrArg (fun a : AppConfig => a.dnsProxy.timeout) heq,
      congrArg (fun a : AppConfig => a.netfilter.additionalTtl) heq⟩
  · unfold AppConfig.reloaded DnsProxy.reloaded Netfilter.reloaded
    rw [htimeout, httl]

/-- A configuration that was loaded is never refused when it is saved and loaded again. Its groups,
rules and subscriptions come back as they are, and so do its settings exactly if both durations are
zero or have reached the unit below which they are multiplied by it. -/
theorem saved_loaded (lib : Library) (c : Settings) (buf version : Bytes)
    (hload : configLoadBuffer lib initDefaults buf = .ok c)
    (hversion : (str "0.").isPrefixOf version = true)
    (hlib : lib.ReadsBack (settingsNode c version)) :
    ∃ text c', configSaveBuffer lib c version = .ok text ∧
      configLoadBuffer lib initDefaults text = .ok c' ∧
      c'.data = { c.data with groupsPresent := true, subscriptionsPresent := true } ∧
      c'.app = c.app.reloaded ∧
      (c'.app = c.app ↔
        (c.app.dnsProxy.timeout = 0 ∨ durationMs ≤ c.app.dnsProxy.timeout) ∧
          (c.app.netfilter.additionalTtl = 0 ∨ durationSec ≤ c.app.netfilter.additionalTtl)) := by
  have hdoc : ∃ root, loadDocument initDefaults root = .ok c := by
    unfold configLoadBuffer at hload
    split at hload
    · cases hload
    · exact ⟨_, hload⟩
  obtain ⟨root, hroot⟩ := hdoc
  obtain ⟨happ, hdata⟩ := loadDocument_ok hroot
  obtain ⟨text, n, hemit, hparse, hn⟩ := hlib
  refine ⟨text, c.reloaded, ?_, ?_, hdata.reloaded, rfl, reloaded_app_iff happ⟩
  · rw [configSaveBuffer, saveEvents_eq, hemit]
  · rw [configLoadBuffer, hparse]
    refine (loadDocument_reads (hdata.words happ) hn).trans ?_
    rw [if_pos hversion, if_pos hdata.uniqueIds]

theorem saved_loaded_fixture :
    configLoadBuffer fixtureLibrary initDefaults fixtureText = .ok fixture ∧
      ∃ text c', configSaveBuffer fixtureLibrary fixture (str "0.99.0") = .ok text ∧
        configLoadBuffer fixtureLibrary initDefaults text = .ok c' ∧ c'.app = fixture.app := by
  have hread : configLoadBuffer fixtureLibrary initDefaults fixtureText = .ok fixture := by
    rw [configLoadBuffer, fixtureLibrary_parse]
    refine (loadDocument_reads words_fixture fixture_reads).trans ?_
    rw [if_pos (by decide), if_pos (by decide), reloaded_fixture]
  obtain ⟨text, c', hsave, hload, -, -, happ⟩ := saved_loaded fixtureLibrary fixture fixtureText
    (str "0.99.0") hread (by decide) readsBack_fixture
  exact ⟨hread, text, c', hsave, hload, happ.mpr ⟨.inr (by decide), .inr (by decide)⟩⟩

end MagiTrickle.Yaml
