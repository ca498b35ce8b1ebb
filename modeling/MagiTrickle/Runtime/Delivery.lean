import MagiTrickle.Runtime.Coherent

/-!
# Matches reach their own sets

The pipeline names a group or a subscription by its id, and `on_match` looks the
id up again: first among all groups, disabled ones included, then among the
subscriptions. Sets and chains are named by the id as well. A match therefore
goes to its own set, and all names differ, exactly if no two rulesets that
matter share an id (`run_delivers_iff`).
-/

namespace MagiTrickle.Runtime

open Config Api Rules

/-! ## Actions -/

/-- The actions that the pipeline produces for an entry of the snapshot. -/
def Produced (e : GroupSnapshot) (a : Pipeline.Action) : Prop :=
  ∃ s c rr now, s.snapshot = [e] ∧ a ∈ (Pipeline.handleRecord s c rr now).2

theorem Produced.groupId {e : GroupSnapshot} {a : Pipeline.Action} (h : Produced e a) :
    a.groupId = e.id := by
  obtain ⟨s, c, rr, now, hs, ha⟩ := h
  have hmem : ∀ {p : GroupSnapshot → Bool} {g : GroupSnapshot}, g ∈ s.snapshot.filter p → g = e := by
    intro p g hg
    rw [hs] at hg
    exact List.mem_singleton.mp (List.mem_filter.mp hg).1
  have haddr : ∀ n, a ∈ (Pipeline.handleAddressRecord s c rr n now).2 → a.groupId = e.id := by
    intro n ha
    unfold Pipeline.handleAddressRecord at ha
    split_ifs at ha
    · exact absurd ha List.not_mem_nil
    · split at ha
      · exact absurd ha List.not_mem_nil
      · obtain ⟨g, hg, rfl⟩ := List.mem_map.mp ha
        rw [hmem hg]
  unfold Pipeline.handleRecord at ha
  split_ifs at ha
  · exact haddr 4 ha
  · exact haddr 16 ha
  · unfold Pipeline.handleCnameRecord at ha
    split at ha
    · obtain ⟨g, hg, ha⟩ := List.mem_flatMap.mp ha
      obtain ⟨x, -, rfl⟩ := List.mem_map.mp ha
      rw [hmem hg]
    · exact absurd ha List.not_mem_nil
  · exact absurd ha List.not_mem_nil

namespace Daemon

variable {d : Daemon} {X Y : Source} {e : Entry}

/-! ## Rulesets by their place -/

def ruleset (d : Daemon) : Source → Option RulesetObj
  | .user i => d.user.rulesets[i]?
  | .synth j => d.synth.rulesets[j]?

/-- The group, or the subscription as a group, that the snapshot entry is built from. -/
def configured (d : Daemon) : Source → Option Group
  | .user i => d.configGroups[i]?
  | .synth j => d.configSubs[j]?.map Rules.subRuntimeGroup

def Up (d : Daemon) (X : Source) : Prop := ∃ rs s, d.ruleset X = some rs ∧ rs.ipset = some s

theorem Coherent.held (h : d.Coherent) {rs : RulesetObj} (hX : d.ruleset X = some rs) :
    rs.Held d.deps (d.heap.get rs.group) := by
  cases X with
  | user i => exact h.user.held rs (List.mem_of_getElem? hX)
  | synth j => exact h.synth.held rs (List.mem_of_getElem? hX)

theorem ruleset_addTo_ne (hne : X ≠ Y) : (d.addTo e X).ruleset Y = d.ruleset Y := by
  cases X with
  | user i =>
    cases hi : d.user.rulesets[i]? with
    | none => rw [addTo_user_none hi]
    | some rs =>
      rw [addTo_user hi]
      cases Y with
      | user i' => exact List.getElem?_set_ne fun he => hne (congrArg _ he)
      | synth j => rfl
  | synth j =>
    cases hj : d.synth.rulesets[j]? with
    | none => rw [addTo_synth_none hj]
    | some rs =>
      rw [addTo_synth hj]
      cases Y with
      | user i => rfl
      | synth j' => exact List.getElem?_set_ne fun he => hne (congrArg _ he)

theorem ruleset_addTo_self {rs : RulesetObj} (hX : d.ruleset X = some rs) :
    (d.addTo e X).ruleset X = some (rs.add (d.heap.get rs.group) e d.nf).1 := by
  cases X with
  | user i =>
    rw [addTo_user hX]
    exact List.getElem?_set_self (List.getElem?_eq_some_iff.mp hX).1
  | synth j =>
    rw [addTo_synth hX]
    exact List.getElem?_set_self (List.getElem?_eq_some_iff.mp hX).1

theorem Coherent.ruleset_addTo_up (h : d.Coherent) {rs : RulesetObj} {s : IpsetObj}
    (hX : d.ruleset X = some rs) (hs : rs.ipset = some s) :
    (d.addTo e X).ruleset X = some { rs with ipset := some { s with added := s.added ++ [e] } } := by
  have hup : (rs.enabled && (d.heap.get rs.group).enable) = true := by
    have hset := (h.held hX).set
    rw [hs] at hset
    split at hset
    · assumption
    · cases hset
  obtain ⟨hen, hgen⟩ := Bool.and_eq_true_iff.mp hup
  rw [ruleset_addTo_self hX]
  unfold RulesetObj.add
  rw [hen, hgen, hs]
  rfl

theorem Coherent.addTo_down (h : d.Coherent) (hX : ¬ d.Up X) : d.addTo e X = d := by
  have hadd : ∀ rs, d.ruleset X = some rs → rs.add (d.heap.get rs.group) e d.nf = (rs, d.nf) := by
    intro rs hrs
    have hset := (h.held hrs).set
    have hnone : rs.ipset = none := by
      cases hs : rs.ipset with
      | none => rfl
      | some s => exact absurd ⟨rs, s, hrs, hs⟩ hX
    rw [hnone] at hset
    unfold RulesetObj.add
    split at hset
    · cases hset
    · next hoff =>
      cases hen : rs.enabled
      · rfl
      · cases hgen : (d.heap.get rs.group).enable
        · rfl
        · rw [hen, hgen] at hoff
          exact absurd rfl hoff
  cases X with
  | user i =>
    cases hi : d.user.rulesets[i]? with
    | none => exact addTo_user_none hi e
    | some rs =>
      rw [addTo_user hi, hadd rs hi]
      obtain ⟨hlt, rfl⟩ := List.getElem?_eq_some_iff.mp hi
      unfold setRuleset
      dsimp only
      rw [List.set_getElem_self]
  | synth j =>
    cases hj : d.synth.rulesets[j]? with
    | none => exact addTo_synth_none hj e
    | some rs =>
      rw [addTo_synth hj, hadd rs hj]
      obtain ⟨hlt, rfl⟩ := List.getElem?_eq_some_iff.mp hj
      dsimp only
      rw [List.set_getElem_self]

/-- Adding in two places comes to the same only if they are one, or nothing is added. -/
theorem Coherent.addTo_eq_iff (h : d.Coherent) :
    d.addTo e X = d.addTo e Y ↔ X = Y ∨ (¬ d.Up X ∧ ¬ d.Up Y) := by
  constructor
  · intro he
    by_cases hXY : X = Y
    · exact .inl hXY
    · -- a set that has grown in one state and not in the other
      have hlost : ∀ X Y, X ≠ Y → d.addTo e X = d.addTo e Y → ¬ d.Up X := by
        rintro X Y hne he ⟨rs, s, hrs, hs⟩
        have hgrown := h.ruleset_addTo_up (e := e) hrs hs
        rw [he, ruleset_addTo_ne (Ne.symm hne), hrs] at hgrown
        have hset : rs.ipset = some { s with added := s.added ++ [e] } :=
          congrArg RulesetObj.ipset (Option.some.inj hgrown)
        rw [hs] at hset
        have hlen := congrArg (fun s : IpsetObj => s.added.length) (Option.some.inj hset)
        simp at hlen
      exact .inr ⟨hlost X Y hXY he, hlost Y X (Ne.symm hXY) he.symm⟩
  · rintro (rfl | ⟨hX, hY⟩)
    · rfl
    · rw [h.addTo_down hX, h.addTo_down hY]

/-! ## The search by id -/

def idAt (d : Daemon) (X : Source) : Option Id :=
  (d.ruleset X).map fun rs => (d.heap.get rs.group).id

end Daemon

/-- The order of the search: the groups, then the subscriptions. -/
def Source.Before : Source → Source → Prop
  | .user i, .user i' => i < i'
  | .user _, .synth _ => True
  | .synth _, .user _ => False
  | .synth j, .synth j' => j < j'

namespace Daemon

variable {d : Daemon} {X Y : Source} {e : Entry} {id : Id}

def First (d : Daemon) (id : Id) (Y : Source) : Prop :=
  d.idAt Y = some id ∧ ∀ Z, Z.Before Y → d.idAt Z ≠ some id

theorem idAt_eq_some {Z : Source} :
    d.idAt Z = some id ↔ ∃ rs, d.ruleset Z = some rs ∧ (d.heap.get rs.group).id = id :=
  Option.map_eq_some_iff

/-- What `findIdx?` answers about an array of rulesets. -/
theorem findIdx?_rulesets {rss : List RulesetObj} (h : Heap) {i : Nat} :
    (rss.findIdx? fun rs => (h.get rs.group).id = id) = some i ↔
      (rss[i]?.map fun rs => (h.get rs.group).id) = some id ∧
        ∀ j < i, (rss[j]?.map fun rs => (h.get rs.group).id) ≠ some id := by
  rw [List.findIdx?_eq_some_iff_getElem]
  constructor
  · rintro ⟨hlt, hid, hbefore⟩
    refine ⟨?_, fun j hj he => ?_⟩
    · rw [List.getElem?_eq_getElem hlt]
      simpa using hid
    · have hne := hbefore j hj
      rw [List.getElem?_eq_getElem (Nat.lt_trans hj hlt)] at he
      simp at he hne
      exact hne he
  · rintro ⟨hid, hbefore⟩
    obtain ⟨rs, hrs, hid⟩ := Option.map_eq_some_iff.mp hid
    obtain ⟨hlt, rfl⟩ := List.getElem?_eq_some_iff.mp hrs
    refine ⟨hlt, by simpa using hid, fun j hj he => hbefore j hj ?_⟩
    rw [List.getElem?_eq_getElem (Nat.lt_trans hj hlt)]
    simpa using he

theorem findIdx?_rulesets_none {rss : List RulesetObj} (h : Heap)
    (hn : (rss.findIdx? fun rs => (h.get rs.group).id = id) = none) (i : Nat) :
    (rss[i]?.map fun rs => (h.get rs.group).id) ≠ some id := by
  intro he
  obtain ⟨rs, hrs, hid⟩ := Option.map_eq_some_iff.mp he
  have hne := List.findIdx?_eq_none_iff.mp hn rs (List.mem_of_getElem? hrs)
  simp only [decide_eq_false_iff_not] at hne
  exact hne hid

theorem findRuleset_some (h : d.findRuleset id = some Y) : d.First id Y := by
  unfold findRuleset at h
  split at h
  · next i hi =>
    obtain ⟨hid, hbefore⟩ := (findIdx?_rulesets d.heap).mp hi
    cases h
    refine ⟨hid, fun Z hZ => ?_⟩
    cases Z with
    | user j => exact hbefore j hZ
    | synth j => exact hZ.elim
  · next hnone =>
    obtain ⟨j, hj, rfl⟩ := Option.map_eq_some_iff.mp h
    obtain ⟨hid, hbefore⟩ := (findIdx?_rulesets d.heap).mp hj
    refine ⟨hid, fun Z hZ => ?_⟩
    cases Z with
    | user i => exact findIdx?_rulesets_none d.heap hnone i
    | synth j' => exact hbefore j' hZ

theorem findRuleset_none (h : d.findRuleset id = none) (Z : Source) : d.idAt Z ≠ some id := by
  unfold findRuleset at h
  split at h
  · cases h
  · next hnone =>
    cases Z with
    | user i => exact findIdx?_rulesets_none d.heap hnone i
    | synth j => exact findIdx?_rulesets_none d.heap (Option.map_eq_none_iff.mp h) j

theorem before_total (hne : X ≠ Y) : X.Before Y ∨ Y.Before X := by
  cases X with
  | user i =>
    cases Y with
    | user i' => exact Nat.lt_or_gt_of_ne fun he => hne (congrArg _ he)
    | synth j => exact .inl trivial
  | synth j =>
    cases Y with
    | user i => exact .inr trivial
    | synth j' => exact Nat.lt_or_gt_of_ne fun he => hne (congrArg _ he)

theorem First.unique (hX : d.First id X) (hY : d.First id Y) : X = Y := by
  by_contra hne
  rcases before_total hne with hb | hb
  · exact hY.2 X hb hX.1
  · exact hX.2 Y hb hY.1

/-- A ruleset is found under the id of the group or the subscription it was made for. -/
theorem Coherent.idAt_configured (h : d.Coherent) (ha : d.Aligned) {g : Group}
    {rs : RulesetObj} (hg : d.configured X = some g) (hrs : d.ruleset X = some rs) :
    d.idAt X = some g.id := by
  refine idAt_eq_some.mpr ⟨rs, hrs, ?_⟩
  cases X with
  | user i =>
    have hp : d.user.groups[i]? = some rs.group := by
      rw [h.user.getElem?, show d.user.rulesets[i]? = some rs from hrs]
      rfl
    have hget : d.configGroups[i]? = some (d.heap.get rs.group) := by
      rw [configGroups, List.getElem?_map, hp]
      rfl
    rw [Option.some.inj (hget.symm.trans hg)]
  | synth j =>
    have hp : d.synth.groups[j]? = some rs.group := by
      rw [h.synth.getElem?, show d.synth.rulesets[j]? = some rs from hrs]
      rfl
    rcases ha with he | hs
    · rw [he] at hp
      cases hp
    · have hget : d.synthGroups[j]? = some (d.heap.get rs.group) := by
        rw [synthGroups, List.getElem?_map, hp]
        rfl
      have hcfg : d.subs.runtime[j]? = some g := by
        rw [← hg]
        show _ = d.configSubs[j]?.map Rules.subRuntimeGroup
        rw [Subs.runtime, configSubs, List.getElem?_map, List.getElem?_map, Option.map_map]
        rfl
      rw [hs] at hget
      rw [Option.some.inj (hget.symm.trans hcfg)]

/-! ## Names -/

theorem objectName_eq_iff (pre : Bytes) (i j : Id) :
    objectName pre i = objectName pre j ↔
      i.format.take (127 - pre.length) = j.format.take (127 - pre.length) := by
  unfold objectName
  rw [List.take_append, List.take_append, List.append_cancel_left_eq]

/-! ## Delivery -/

/-- Every match adds its address to the set of the ruleset it was made for and to no other, and
the names of the rulesets that are up differ. -/
structure Delivers (d : Daemon) : Prop where
  own : ∀ X g a, d.configured X = some g → g.enable = true → Produced (snapshotEntry g) a →
    d.onMatch a = d.addTo (entryOf a) X
  ipset : ∀ X Y rs rs' s s', X ≠ Y → d.ruleset X = some rs → d.ruleset Y = some rs' →
    rs.ipset = some s → rs'.ipset = some s' → s.name ≠ s'.name
  chain : ∀ X Y rs rs' c c', X ≠ Y → d.ruleset X = some rs → d.ruleset Y = some rs' →
    rs.ipsetToLink = some c → rs'.ipsetToLink = some c' → c ≠ c'

/-- Ids are told apart by the digits that a name of 127 bytes has room for. -/
def Distinct (pre : Bytes) (i j : Id) : Prop :=
  i.format.take (127 - pre.length) ≠ j.format.take (127 - pre.length)

/-- The ids of the rulesets that matter: where an enabled group or subscription that can match
shares its id with an earlier ruleset, neither it nor the first with this id is up; and the ids of
two rulesets that are up can be told apart in the names. -/
structure IdsApart (d : Daemon) : Prop where
  first : ∀ X Y g, d.configured X = some g → g.enable = true →
    (∃ a, Produced (snapshotEntry g) a) → d.First g.id Y → X = Y ∨ (¬ d.Up X ∧ ¬ d.Up Y)
  names : ∀ X Y i j, X ≠ Y → d.Up X → d.Up Y → d.idAt X = some i → d.idAt Y = some j →
    Distinct d.deps.ipsetPrefix i j ∧ Distinct d.deps.chainPrefix i j

theorem Coherent.names_up (h : d.Coherent) {rs : RulesetObj} (hX : d.ruleset X = some rs)
    (hup : rs.ipset.isSome = true) :
    rs.ipset.map IpsetObj.name = some (d.deps.ipsetName (d.heap.get rs.group).id) ∧
      rs.ipsetToLink = some (d.deps.chainName (d.heap.get rs.group).id) := by
  obtain ⟨hset, hlink⟩ := h.held hX
  obtain ⟨s, hs⟩ := Option.isSome_iff_exists.mp hup
  split at hset
  · next hon =>
    rw [if_pos hon] at hlink
    exact ⟨hset, hlink⟩
  · rw [hs] at hset
    cases hset

theorem Coherent.up_of_link (h : d.Coherent) {rs : RulesetObj} {c : Bytes}
    (hX : d.ruleset X = some rs) (hc : rs.ipsetToLink = some c) : ∃ s, rs.ipset = some s := by
  obtain ⟨hset, hlink⟩ := h.held hX
  split at hlink
  · next hon =>
    rw [if_pos hon] at hset
    obtain ⟨s, hs, -⟩ := Option.map_eq_some_iff.mp hset
    exact ⟨s, hs⟩
  · rw [hc] at hlink
    cases hlink

theorem Coherent.idsApart_of_delivers (h : d.Coherent) (hd : d.Delivers) : d.IdsApart where
  first X Y g hg hen := by
    rintro ⟨a, ha⟩ hY
    have hown := hd.own X g a hg hen ha
    have hid : a.groupId = g.id := ha.groupId
    unfold Daemon.onMatch at hown
    cases hf : d.findRuleset a.groupId with
    | none => exact absurd (hid ▸ hY.1) (findRuleset_none hf Y)
    | some Y' =>
      have hY' : Y' = Y := (findRuleset_some hf).unique (hid ▸ hY)
      rw [hf, hY'] at hown
      exact h.addTo_eq_iff.mp hown.symm
  names X Y i j hne := by
    rintro ⟨rs, s, hrs, hs⟩ ⟨rs', s', hrs', hs'⟩ hi hj
    obtain ⟨hname, hlink⟩ := h.names_up hrs (by rw [hs]; rfl)
    obtain ⟨hname', hlink'⟩ := h.names_up hrs' (by rw [hs']; rfl)
    have hi : (d.heap.get rs.group).id = i := by
      obtain ⟨_, hr, hi⟩ := idAt_eq_some.mp hi
      rwa [Option.some.inj (hrs.symm.trans hr)]
    have hj : (d.heap.get rs'.group).id = j := by
      obtain ⟨_, hr, hj⟩ := idAt_eq_some.mp hj
      rwa [Option.some.inj (hrs'.symm.trans hr)]
    rw [hs, hi] at hname
    rw [hs', hj] at hname'
    rw [hi] at hlink
    rw [hj] at hlink'
    refine ⟨fun he => hd.ipset X Y rs rs' s s' hne hrs hrs' hs hs' ?_,
      fun he => hd.chain X Y rs rs' _ _ hne hrs hrs' hlink hlink' ?_⟩
    · rw [Option.some.inj hname, Option.some.inj hname']
      exact (objectName_eq_iff _ i j).mpr he
    · exact (objectName_eq_iff _ i j).mpr he

theorem Coherent.delivers_of_idsApart (h : d.Coherent) (ha : d.Aligned) (hi : d.IdsApart) :
    d.Delivers where
  own X g a hg hen hp := by
    have hid : a.groupId = g.id := hp.groupId
    unfold Daemon.onMatch
    cases hf : d.findRuleset a.groupId with
    | none =>
      -- only after a failed rollback, when the subscription has no ruleset
      have hdown : ¬ d.Up X := by
        rintro ⟨rs, s, hrs, -⟩
        exact findRuleset_none hf X (hid ▸ h.idAt_configured ha hg hrs)
      exact (h.addTo_down hdown).symm
    | some Y =>
      have hfirst : d.First g.id Y := hid ▸ findRuleset_some hf
      exact (h.addTo_eq_iff.mpr (hi.first X Y g hg hen ⟨a, hp⟩ hfirst)).symm
  ipset X Y rs rs' s s' hne hrs hrs' hs hs' he := by
    obtain ⟨hname, -⟩ := h.names_up hrs (by rw [hs]; rfl)
    obtain ⟨hname', -⟩ := h.names_up hrs' (by rw [hs']; rfl)
    rw [hs] at hname
    rw [hs'] at hname'
    refine (hi.names X Y _ _ hne ⟨rs, s, hrs, hs⟩ ⟨rs', s', hrs', hs'⟩ (idAt_eq_some.mpr ⟨rs, hrs, rfl⟩)
      (idAt_eq_some.mpr ⟨rs', hrs', rfl⟩)).1 ((objectName_eq_iff _ _ _).mp ?_)
    exact (Option.some.inj hname).symm.trans (he.trans (Option.some.inj hname'))
  chain X Y rs rs' c c' hne hrs hrs' hc hc' he := by
    obtain ⟨s, hs⟩ := h.up_of_link hrs hc
    obtain ⟨s', hs'⟩ := h.up_of_link hrs' hc'
    obtain ⟨-, hlink⟩ := h.names_up hrs (by rw [hs]; rfl)
    obtain ⟨-, hlink'⟩ := h.names_up hrs' (by rw [hs']; rfl)
    rw [hc] at hlink
    rw [hc'] at hlink'
    refine (hi.names X Y _ _ hne ⟨rs, s, hrs, hs⟩ ⟨rs', s', hrs', hs'⟩ (idAt_eq_some.mpr ⟨rs, hrs, rfl⟩)
      (idAt_eq_some.mpr ⟨rs', hrs', rfl⟩)).2 ((objectName_eq_iff _ _ _).mp ?_)
    exact (Option.some.inj hlink).symm.trans (he.trans (Option.some.inj hlink'))

/-- In every state a daemon reaches, matches reach their own sets and names differ exactly if the
ids of the rulesets that matter do. -/
theorem run_delivers_iff {k : Deps} {cfg : Config} {answers : List (Option Err)}
    (h : launch k cfg answers = .ok d) (ops : List Op) :
    (d.run ops).Delivers ↔ (d.run ops).IdsApart := by
  obtain ⟨hc, ha, -⟩ := launch_spec h
  obtain ⟨hc', ha'⟩ := hc.run ha ops
  exact ⟨hc'.idsApart_of_delivers, hc'.delivers_of_idsApart ha'⟩

/-- Where all names differ and every group and subscription has its ruleset. -/
theorem idsApart_of_distinct
    (hids : ∀ X Y i j, X ≠ Y → d.idAt X = some i → d.idAt Y = some j →
      Distinct d.deps.ipsetPrefix i j ∧ Distinct d.deps.chainPrefix i j)
    (hall : ∀ X g, d.configured X = some g → d.idAt X = some g.id) : d.IdsApart where
  first X Y g hg _ _ hY := by
    by_contra hno
    have hne : X ≠ Y := (not_or.mp hno).1
    exact (hids X Y g.id g.id hne (hall X g hg) hY.1).1 rfl
  names X Y i j hne _ _ hX hY := hids X Y i j hne hX hY

theorem idAt_pair {rs rs' : RulesetObj} (hu : d.user.rulesets = [rs]) (hs : d.synth.rulesets = [rs'])
    (hX : d.idAt X = some id) :
    X = .user 0 ∧ id = (d.heap.get rs.group).id ∨ X = .synth 0 ∧ id = (d.heap.get rs'.group).id := by
  obtain ⟨r, hr, rfl⟩ := idAt_eq_some.mp hX
  rcases X with (_ | i) | (_ | j)
  · have hr : d.user.rulesets[0]? = some r := hr
    rw [hu] at hr
    cases hr
    exact .inl ⟨rfl, rfl⟩
  · have hr : d.user.rulesets[i + 1]? = some r := hr
    rw [hu] at hr
    cases hr
  · have hr : d.synth.rulesets[0]? = some r := hr
    rw [hs] at hr
    cases hr
    exact .inr ⟨rfl, rfl⟩
  · have hr : d.synth.rulesets[j + 1]? = some r := hr
    rw [hs] at hr
    cases hr

def bare : GroupNode := ⟨⟨0, 0, 0, 1⟩, str "a", [], str "wg0", true, [], none⟩

def namesake : SubscriptionNode :=
  ⟨⟨0, 0, 0, 1⟩, str "b", str "wg1", true, str "http://b", 0, 0,
    [⟨⟨0, 0, 0, 2⟩, str "b", str "domain", true⟩], none⟩

def namesakes : Doc := ⟨none, .ok (some [bare]), .ok (some [namesake])⟩

def namesakesConfig : Config :=
  ⟨CArray.empty.push bare.group, true, CArray.empty.push namesake.subscription, true⟩

/-- The action for an address of `b`. -/
def addressOfB (id : Id) : Pipeline.Action := ⟨id, [1, 2, 3, 4], 60⟩

def neighbour : SubscriptionNode := { namesake with id := ⟨0, 0, 0, 3⟩ }

def neighbours : Config :=
  ⟨CArray.empty.push bare.group, true, CArray.empty.push neighbour.subscription, true⟩

theorem distinct_neighbours :
    Distinct (str "mt_") ⟨0, 0, 0, 1⟩ ⟨0, 0, 0, 3⟩ ∧ Distinct (str "MT_") ⟨0, 0, 0, 1⟩ ⟨0, 0, 0, 3⟩ := by
  unfold Distinct
  decide +kernel

/-- The address of `b` goes to the set of the subscription, and the names differ. -/
theorem run_delivers_iff_neighbours :
    ∃ d, launch ⟨str "mt_", str "MT_"⟩ neighbours [] = .ok d ∧ d.Up (.user 0) ∧ d.Up (.synth 0) ∧
      d.configured (.synth 0) = some (Rules.subRuntimeGroup neighbour.subscription) ∧
      Produced (snapshotEntry (Rules.subRuntimeGroup neighbour.subscription))
        (addressOfB ⟨0, 0, 0, 3⟩) ∧
      d.Delivers ∧
      (d.onMatch (addressOfB ⟨0, 0, 0, 3⟩)).synth.rulesets.map
          (fun rs => rs.ipset.map IpsetObj.added) = [some [entryOf (addressOfB ⟨0, 0, 0, 3⟩)]] := by
  refine ⟨_, rfl, ⟨_, _, rfl, rfl⟩, ⟨_, _, rfl, rfl⟩, rfl, ?_, ?_, by decide +kernel⟩
  · refine ⟨⟨0, [_], fun _ _ => false⟩, .create 0,
      ⟨[1, 98, 0], Dns.Wire.typeA, 1, 60, [1, 2, 3, 4]⟩, 0, rfl, ?_⟩
    decide +kernel
  · refine (@run_delivers_iff _ ⟨str "mt_", str "MT_"⟩ neighbours [] rfl []).mpr
      (idsApart_of_distinct ?_ ?_)
    · intro X Y i j hne hX hY
      rcases idAt_pair rfl rfl hX with ⟨rfl, rfl⟩ | ⟨rfl, rfl⟩ <;>
        rcases idAt_pair rfl rfl hY with ⟨rfl, rfl⟩ | ⟨rfl, rfl⟩
      · exact absurd rfl hne
      · exact ⟨distinct_neighbours.1, distinct_neighbours.2⟩
      · exact ⟨distinct_neighbours.1.symm, distinct_neighbours.2.symm⟩
      · exact absurd rfl hne
    · rintro ((_ | i) | (_ | j)) g hg
      · cases hg
        rfl
      · cases hg
      · cases hg
        rfl
      · cases hg

theorem produced_addressOfB :
    Produced (snapshotEntry (Rules.subRuntimeGroup namesake.subscription)) (addressOfB ⟨0, 0, 0, 1⟩) := by
  refine ⟨⟨0, [_], fun _ _ => false⟩, .create 0,
    ⟨[1, 98, 0], Dns.Wire.typeA, 1, 60, [1, 2, 3, 4]⟩, 0, rfl, ?_⟩
  decide +kernel

/-- The address goes to the set of the group, and the sets and chains have one name each. -/
theorem namesakes_misdelivered :
    (loadBuffer initDefaults namesakes).2 = .ok namesakesConfig ∧
      ∃ d, launch ⟨str "mt_", str "MT_"⟩ namesakesConfig [] = .ok d ∧
        d.configured (.synth 0) = some (Rules.subRuntimeGroup namesake.subscription) ∧
        Produced (snapshotEntry (Rules.subRuntimeGroup namesake.subscription)) (addressOfB ⟨0, 0, 0, 1⟩) ∧
        (d.onMatch (addressOfB ⟨0, 0, 0, 1⟩)).user.rulesets.map (fun rs => rs.ipset.map IpsetObj.added) =
          [some [entryOf (addressOfB ⟨0, 0, 0, 1⟩)]] ∧
        (d.onMatch (addressOfB ⟨0, 0, 0, 1⟩)).synth.rulesets.map (fun rs => rs.ipset.map IpsetObj.added) =
          [some []] ∧
        d.user.rulesets.map (fun rs => (rs.ipset.map IpsetObj.name, rs.ipsetToLink)) =
          d.synth.rulesets.map (fun rs => (rs.ipset.map IpsetObj.name, rs.ipsetToLink)) := by
  refine ⟨rfl, _, rfl, rfl, produced_addressOfB, ?_, ?_, ?_⟩
  · decide +kernel
  · decide +kernel
  · decide +kernel

end Daemon

end MagiTrickle.Runtime
