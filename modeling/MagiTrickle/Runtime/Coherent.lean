import MagiTrickle.Runtime.SubOps

/-!
# Coherence over whole runs

An operation on groups leaves the subscriptions and their rulesets alone
(`OnGroups`); one on subscriptions leaves the groups alone (`Ends`). Every
request, sync, reload and match is made of these, so the registries are coherent
in every state a daemon reaches (`run_coherent`).
-/

namespace MagiTrickle.Runtime

open Config Api Rules

namespace Daemon

variable {d b : Daemon}

/-! ## Operations on groups -/

/-- The snapshot is the one of the present configuration. -/
def Mirrored (d : Daemon) : Prop :=
  d.snapshot = rulesetSnapshotBuild d.configGroups d.configSubs

theorem snapshotBuild_runtime (d : Daemon) (gs : List Group) :
    rulesetSnapshotBuild gs d.configSubs =
      (gs.filter Group.enable ++ d.subs.runtime.filter Group.enable).map snapshotEntry := by
  rw [rulesetSnapshotBuild, snapshotGroups, configSubs, List.map_map]
  rfl

theorem Mirrored.of_eq (h : d.Mirrored) (hs : b.snapshot = d.snapshot)
    (hg : b.configGroups = d.configGroups) (hr : b.subs.runtime = d.subs.runtime) :
    b.Mirrored := by
  unfold Mirrored at h ⊢
  rw [hs, h, snapshotBuild_runtime, snapshotBuild_runtime, hg, hr]

theorem mirrored_republish (d : Daemon) : d.republish.Mirrored := rfl

/-- What an operation on groups does: the other registry is as it was, and so is the agreement of
the snapshot with the configuration. -/
structure OnGroups (d b : Daemon) : Prop where
  coherent : b.Coherent
  subs : b.subs = d.subs
  synth : b.synth = d.synth
  cell : ∀ p ∈ d.synth.groups, b.heap.cell p = d.heap.cell p
  mirrored : d.Mirrored → b.Mirrored

theorem Coherent.onGroups (h : d.Coherent) : d.OnGroups d :=
  ⟨h, rfl, rfl, fun _ _ => rfl, fun h => h⟩

theorem OnGroups.trans {c : Daemon} (h : d.OnGroups b) (h' : b.OnGroups c) : d.OnGroups c where
  coherent := h'.coherent
  subs := h'.subs.trans h.subs
  synth := h'.synth.trans h.synth
  cell p hp := (h'.cell p (h.synth ▸ hp)).trans (h.cell p hp)
  mirrored hm := h'.mirrored (h.mirrored hm)

theorem OnGroups.aligned (h : d.OnGroups b) (ha : d.Aligned) : b.Aligned := by
  refine ha.imp h.synth.trans fun hs => ?_
  unfold synthGroups
  rw [h.synth, h.subs, ← hs]
  exact List.map_congr_left fun p hp => Heap.get_congr (h.cell p hp)

theorem Coherent.onGroups_rulesets (h : d.Coherent) {rss : List RulesetObj} {nf : Nf}
    (hg : rss.map RulesetObj.group = d.user.rulesets.map RulesetObj.group)
    (hh : ∀ rs ∈ rss, rs.Held d.deps (d.heap.get rs.group)) (hf : nf.faults = d.nf.faults) :
    d.OnGroups { d with user := { d.user with rulesets := rss }, nf := nf } where
  coherent := ⟨h.user.of_rulesets hg hh, h.synth, h.nodup, h.below, hf.trans h.faults⟩
  subs := rfl
  synth := rfl
  cell _ _ := rfl
  mirrored hm := hm

theorem Coherent.onGroups_setRuleset (h : d.Coherent) {i : Nat} {rs rs' : RulesetObj} {nf : Nf}
    (hi : d.user.rulesets[i]? = some rs) (hg : rs'.group = rs.group)
    (hh : rs'.Held d.deps (d.heap.get rs.group)) (hf : nf.faults = d.nf.faults) :
    d.OnGroups (d.setRuleset i rs' nf) where
  coherent := ⟨h.user.set hi hg hh, h.synth, h.nodup, h.below, hf.trans h.faults⟩
  subs := rfl
  synth := rfl
  cell _ _ := rfl
  mirrored hm := hm

/-- A group overwritten in place: its ruleset must hold with the new flag, and the snapshot is
made anew. -/
theorem Coherent.onGroups_write (h : d.Coherent) {p : Ptr} {g : Group} (hp : p ∈ d.user.groups)
    (hh : ∀ rs ∈ d.user.rulesets, rs.group = p → rs.Held d.deps g) :
    d.OnGroups { d with heap := d.heap.write p g }.republish := by
  have hsynth : ∀ q ∈ d.synth.groups, (d.heap.write p g).cell q = d.heap.cell q :=
    fun q hq => Heap.cell_write_of_ne fun he => h.disjoint hp (he ▸ hq)
  refine ⟨Coherent.republish ⟨⟨h.user.refers, fun q hq => ?_, fun rs hrs => ?_⟩,
    h.synth.frame hsynth, h.nodup, fun q hq => ?_, h.faults⟩, rfl, rfl, hsynth, fun _ => rfl⟩
  · by_cases he : q = p
    · rw [he, Heap.cell_write_self]
      rfl
    · rw [Heap.cell_write_of_ne he]
      exact h.user.alive q hq
  · by_cases he : rs.group = p
    · rw [he, Heap.get_of_cell Heap.cell_write_self]
      exact hh rs hrs he
    · rw [Heap.get_congr (Heap.cell_write_of_ne he)]
      exact h.user.held rs hrs
  · by_cases he : q = p
    · rw [he]
      exact h.below p (h.user.alive p hp)
    · rw [Heap.cell_write_of_ne he] at hq
      exact h.below q hq

theorem configGroups_free {ps : List Ptr} (hps : ∀ p ∈ d.user.groups, p ∉ ps) :
    configGroups { d with heap := d.heap.free ps } = d.configGroups :=
  List.map_congr_left fun p hp => Heap.get_congr (Heap.cell_free_of_not_mem (hps p hp))

theorem Coherent.onGroups_freeFresh (h : d.Coherent) {p : Ptr} (hp : d.Fresh p) :
    d.OnGroups { d with heap := d.heap.free [p] } where
  coherent := h.freeFresh hp
  subs := rfl
  synth := rfl
  cell _ hq := Heap.cell_free_of_not_mem fun he => hp.synth (List.mem_singleton.mp he ▸ hq)
  mirrored hm := hm.of_eq rfl
    (configGroups_free fun _ hq he => hp.user (List.mem_singleton.mp he ▸ hq)) rfl

theorem Coherent.onGroups_alloc (h : d.Coherent) (g : Group) :
    d.OnGroups { d with heap := d.heap.alloc g } where
  coherent := h.alloc g
  subs := rfl
  synth := rfl
  cell _ hq := Heap.cell_alloc_of_ne fun he => h.next_notMem_synth (he ▸ hq)
  mirrored hm := hm.of_eq rfl (List.map_congr_left fun _ hp =>
    Heap.get_congr (Heap.cell_alloc_of_ne fun he => h.next_notMem_user (he ▸ hp))) rfl

theorem OnGroups.withNf (h : d.OnGroups b) {nf : Nf} (hf : nf.faults = b.nf.faults) :
    d.OnGroups { b with nf := nf } :=
  ⟨h.coherent.withNf hf, h.subs, h.synth, h.cell, h.mirrored⟩

/-- The last steps of an operation that ends with a new snapshot. -/
theorem OnGroups.of_republish (hc : b.Coherent) (hm : b.subs = d.subs) (hs : b.synth = d.synth)
    (hcell : ∀ p ∈ d.synth.groups, b.heap.cell p = d.heap.cell p) : d.OnGroups b.republish :=
  ⟨hc.republish, hm, hs, hcell, fun _ => rfl⟩

theorem Coherent.onGroups_addGroup (h : d.Coherent) {p : Ptr} (hp : d.Fresh p) :
    d.OnGroups (d.addGroup p).1 := by
  have hnew : (RulesetObj.new p).Held d.deps (d.heap.get p) := (RulesetObj.idle_new p).held
  have hfree := h.onGroups_freeFresh hp
  unfold addGroup
  dsimp only
  split_ifs
  · exact hfree
  · exact hfree
  · obtain ⟨hh, hf⟩ := hnew.start d.nf
    have hg : ((RulesetObj.new p).start d.deps (d.heap.get p) d.nf).1.group = p :=
      RulesetObj.group_start
    split
    · next rs nf hr =>
      rw [hr] at hh hf hg
      exact .of_republish (h.pushUser hp.alive hp.user hp.synth hg hh hf) rfl rfl fun _ _ => rfl
    · next rs e nf hr =>
      rw [hr] at hh hf
      obtain ⟨hi, hf'⟩ := hh.disable nf
      rw [removeAt_push, hi.free]
      exact hfree.withNf (hf'.trans hf)
  · exact .of_republish (h.pushUser hp.alive hp.user hp.synth rfl hnew rfl) rfl rfl fun _ _ => rfl

theorem Coherent.onGroups_addGroups (h : d.Coherent) (gs : List Group) :
    d.OnGroups (d.addGroups gs).1 := by
  induction gs generalizing d with
  | nil => exact h.onGroups
  | cons g gs ih =>
    have ha := (h.onGroups_alloc g).trans
      ((h.alloc g).onGroups_addGroup (h.fresh_alloc g))
    unfold addGroups
    split
    · next d' e hr =>
      rw [hr] at ha
      exact ha
    · next d' hr =>
      rw [hr] at ha
      exact ha.trans (ih ha.coherent)

theorem Coherent.onGroups_clearGroups (h : d.Coherent) : d.OnGroups d.clearGroups := by
  have hcell : ∀ p ∈ d.synth.groups, (d.heap.free d.user.groups).cell p = d.heap.cell p :=
    fun p hp => Heap.cell_free_of_not_mem fun hu => h.disjoint hu hp
  refine .of_republish ⟨Registry.coherent_empty, h.synth.frame hcell, ?_, ?_, ?_⟩ rfl rfl hcell
  · exact (List.nodup_append.mp h.nodup).2.1
  · exact fun p hp => h.below p (Heap.isSome_of_free hp)
  · exact (Registry.shut_held d.nf h.user.held).trans h.faults

theorem Coherent.onGroups_removeGroupById (h : d.Coherent) {id : Id} {i : Nat} {rs : RulesetObj}
    (hi : d.findGroupById id = some i) (hrs : d.user.rulesets[i]? = some rs) (hidle : rs.Idle) :
    d.OnGroups (d.removeGroupById id) := by
  have hlt := (List.getElem?_eq_some_iff.mp hrs).1
  have hmem : rs.group ∈ d.user.groups := h.user.mem_groups (List.mem_of_getElem? hrs)
  rw [removeGroupById, hi]
  show d.OnGroups (d.removeGroupByIndex i)
  rw [removeGroupByIndex, if_pos hlt]
  refine .of_republish (h.removeAt hrs hidle) rfl rfl fun p hp => Heap.cell_free_of_not_mem ?_
  rw [h.user.getElem?, hrs]
  intro hm
  rw [List.mem_singleton.mp hm] at hp
  exact h.disjoint hmem hp

/-! ## Requests for groups and rules -/

theorem resolveGroup_spec {groupID : Bytes} {i : Nat} {rs : RulesetObj}
    (h : d.resolveGroup groupID = .ok (i, rs)) :
    d.user.rulesets[i]? = some rs ∧ d.findGroupById (d.heap.get rs.group).id = some i := by
  unfold resolveGroup at h
  split at h
  · cases h
  · next id _ =>
    split at h
    · cases h
    · next j hj =>
      split at h
      · cases h
      · next rs' hrs =>
        cases h
        obtain ⟨rs'', hrs'', hid⟩ := findGroupById_spec hj
        rw [hrs] at hrs''
        cases hrs''
        exact ⟨hrs, by rw [hid]; exact hj⟩

theorem Coherent.onGroups_handlePutGroups (h : d.Coherent) (draw : Draw) (body : Option Json) :
    d.OnGroups (d.handlePutGroups draw body).1 := by
  unfold handlePutGroups
  split
  · exact h.onGroups
  · split
    · exact h.onGroups
    · obtain ⟨hg, hidle, hf⟩ := Registry.disableAll_held d.nf h.user.held
      have hd := h.onGroups_rulesets hg (fun rs hrs => (hidle rs hrs).held) hf
      dsimp only
      split
      · exact hd
      · next built _ =>
        have hall := (hd.trans hd.coherent.onGroups_clearGroups).trans
          (hd.coherent.onGroups_clearGroups.coherent.onGroups_addGroups built)
        split
        · next d' e hr =>
          rw [hr] at hall
          exact hall
        · next d' hr =>
          rw [hr] at hall
          exact hall

theorem Coherent.onGroups_handleCreateGroup (h : d.Coherent) (draw : Draw) (body : Option Json) :
    d.OnGroups (d.handleCreateGroup draw body).1 := by
  unfold handleCreateGroup
  split
  · exact h.onGroups
  · split
    · exact h.onGroups
    · next g _ =>
      have ha := h.onGroups_addGroups [g]
      split
      · next d' e hr =>
        rw [hr] at ha
        exact ha
      · next d' hr =>
        rw [hr] at ha
        exact ha

/-- Objects of a registry are known by their place. -/
theorem Coherent.ruleset_unique (h : d.Coherent) {i : Nat} {rs rs' : RulesetObj}
    (hi : d.user.rulesets[i]? = some rs) (hm : rs' ∈ d.user.rulesets)
    (hg : rs'.group = rs.group) : rs' = rs := by
  obtain ⟨j, hj⟩ := List.mem_iff_getElem?.mp hm
  have hgi : d.user.groups[i]? = some rs.group := by rw [h.user.getElem?, hi]; rfl
  have hgj : d.user.groups[j]? = some rs.group := by rw [h.user.getElem?, hj, ← hg]; rfl
  have hij : j = i := by
    have hlt := (List.getElem?_eq_some_iff.mp hgj).1
    exact (List.getElem?_inj hlt h.nodup_user).mp (hgj.trans hgi.symm)
  rw [hij, hi] at hj
  exact (Option.some.inj hj).symm

theorem Coherent.onGroups_replaceGroup (h : d.Coherent) {i : Nat} {rs : RulesetObj}
    (hi : d.user.rulesets[i]? = some rs) (hidle : rs.Idle) (g : Group) (wasEnabled : Bool) :
    d.OnGroups (d.replaceGroup i rs g wasEnabled).1 := by
  have hw : d.OnGroups { d with heap := d.heap.write rs.group g }.republish := by
    refine h.onGroups_write (h.user.mem_groups (List.mem_of_getElem? hi)) fun rs' hm hg => ?_
    rw [h.ruleset_unique hi hm hg]
    exact hidle.held
  have hget : (d.heap.write rs.group g).get rs.group = g := Heap.get_of_cell Heap.cell_write_self
  unfold replaceGroup
  dsimp only
  split_ifs
  · have hstart := (hidle.held (k := d.deps) (g := g)).start d.nf
    have hh : (rs.start d.deps g d.nf).1.Held d.deps ((d.heap.write rs.group g).get rs.group) := by
      rw [hget]
      exact hstart.1
    have hset := hw.coherent.onGroups_setRuleset hi RulesetObj.group_start hh hstart.2
    split
    · next rs' e nf hr =>
      have hr : rs.start d.deps g d.nf = (rs', some e, nf) := hr
      rw [hr] at hset
      exact hw.trans hset
    · next rs' nf hr =>
      have hr : rs.start d.deps g d.nf = (rs', none, nf) := hr
      rw [hr] at hset
      exact hw.trans hset
  · exact hw

theorem Coherent.onGroups_handlePutGroup (h : d.Coherent) (draw : Draw) (groupID : Bytes)
    (body : Option Json) : d.OnGroups (d.handlePutGroup draw groupID body).1 := by
  unfold handlePutGroup
  split
  · exact h.onGroups
  · next i rs hres =>
    obtain ⟨hi, -⟩ := resolveGroup_spec hres
    split
    · exact h.onGroups
    · obtain ⟨hidle, hf⟩ := (h.user.held rs (List.mem_of_getElem? hi)).disable d.nf
      have hset := h.onGroups_setRuleset hi (RulesetObj.group_disable) hidle.held hf
      have hlt := (List.getElem?_eq_some_iff.mp hi).1
      dsimp only
      split
      · next rs' e nf hr =>
        rw [hr] at hset
        exact hset
      · next rs' nf hr =>
        rw [hr] at hset hidle
        split
        · exact hset
        · refine hset.trans (hset.coherent.onGroups_replaceGroup ?_ hidle _ _)
          exact List.getElem?_set_self hlt

theorem Coherent.onGroups_handleDeleteGroup (h : d.Coherent) (groupID : Bytes) :
    d.OnGroups (d.handleDeleteGroup groupID).1 := by
  unfold handleDeleteGroup
  split
  · exact h.onGroups
  · next i rs hres =>
    obtain ⟨hi, hfind⟩ := resolveGroup_spec hres
    have hlt := (List.getElem?_eq_some_iff.mp hi).1
    have hmem := List.mem_of_getElem? hi
    obtain ⟨hidle, hf⟩ := (h.user.held rs hmem).disable d.nf
    have hg : (rs.disable (d.heap.get rs.group) d.nf).1.group = rs.group := RulesetObj.group_disable
    have hset := h.onGroups_setRuleset hi hg hidle.held hf
    split
    · next rs' e nf hr =>
      rw [hr] at hset
      exact hset
    · next rs' nf hr =>
      rw [hr] at hset hidle hg
      -- the ruleset keeps its group, so the search by id still ends at it
      have hfind' : (d.setRuleset i rs' nf).findGroupById (d.heap.get rs.group).id = some i := by
        rw [hset.coherent.findGroupById, ← hfind, h.findGroupById]
        rfl
      exact hset.trans (hset.coherent.onGroups_removeGroupById hfind'
        (List.getElem?_set_self hlt) hidle)

/-- An edit of the rules of a group. -/
theorem Coherent.onGroups_syncAfterEdit (h : d.Coherent) {i : Nat} {rs : RulesetObj}
    (hi : d.user.rulesets[i]? = some rs) (rules : CArray Rule) (body : Option Json) :
    d.OnGroups (d.syncAfterEdit rs { d.heap.get rs.group with rules := rules } body).1 := by
  have hmem := List.mem_of_getElem? hi
  generalize hgr : { d.heap.get rs.group with rules := rules } = g
  have hheld : rs.Held d.deps g := by
    rw [← hgr]
    exact (h.user.held rs hmem).congr rfl rfl
  have hw : d.OnGroups { d with heap := d.heap.write rs.group g }.republish := by
    refine h.onGroups_write (h.user.mem_groups hmem) fun rs' hm hg => ?_
    rw [h.ruleset_unique hi hm hg]
    exact hheld
  have hs : (rs.sync g d.nf).2.faults = d.nf.faults := hheld.sync
  unfold syncAfterEdit
  dsimp only
  split
  · next e nf hr =>
    have hr : rs.sync g d.nf = (some e, nf) := hr
    rw [hr] at hs
    exact hw.withNf hs
  · next nf hr =>
    have hr : rs.sync g d.nf = (none, nf) := hr
    rw [hr] at hs
    exact hw.withNf hs

theorem Coherent.onGroups_handle (h : d.Coherent) (draw : Draw) (req : Request) :
    d.OnGroups (d.handle draw req).1 := by
  cases req with
  | putGroups body save => exact h.onGroups_handlePutGroups draw body
  | createGroup body save => exact h.onGroups_handleCreateGroup draw body
  | putGroup groupID body save => exact h.onGroups_handlePutGroup draw groupID body
  | deleteGroup groupID save => exact h.onGroups_handleDeleteGroup groupID
  | putRules groupID body save =>
    show d.OnGroups (handlePutRules draw d groupID body).1
    unfold handlePutRules
    split
    · exact h.onGroups
    · next i rs hres =>
      split
      · exact h.onGroups
      · split
        · exact h.onGroups
        · dsimp only
          split
          · exact h.onGroups
          · exact h.onGroups
          · exact h.onGroups_syncAfterEdit (resolveGroup_spec hres).1 _ _
  | createRule groupID body save =>
    show d.OnGroups (handleCreateRule draw d groupID body).1
    unfold handleCreateRule
    split
    · exact h.onGroups
    · next i rs hres =>
      split
      · exact h.onGroups
      · exact h.onGroups_syncAfterEdit (resolveGroup_spec hres).1 _ _
  | putRule groupID ruleID body save =>
    show d.OnGroups (d.handlePutRule groupID ruleID body).1
    unfold handlePutRule
    split
    · exact h.onGroups
    · next i rs hres =>
      dsimp only
      split
      · exact h.onGroups
      · split
        · exact h.onGroups
        · exact h.onGroups_syncAfterEdit (resolveGroup_spec hres).1 _ _
  | deleteRule groupID ruleID save =>
    show d.OnGroups (d.handleDeleteRule groupID ruleID).1
    unfold handleDeleteRule
    split
    · exact h.onGroups
    · next i rs hres =>
      dsimp only
      split
      · exact h.onGroups
      · exact h.onGroups_syncAfterEdit (resolveGroup_spec hres).1 _ _
  | getGroups withRules => exact h.onGroups
  | getGroup groupID withRules => exact h.onGroups
  | getRules groupID => exact h.onGroups
  | getRule groupID ruleID => exact h.onGroups

/-! ## Requests for subscriptions -/

theorem Ends.same {e : Option Err} (h : d.Ends b e) (hd : d.Coherent) (he : e ≠ none) :
    b.snapshot = d.snapshot ∧ b.configGroups = d.configGroups := by
  cases h with
  | plain => exact ⟨rfl, rfl⟩
  | done => exact absurd rfl he
  | @back m m' b e hr =>
    obtain ⟨hb, hk, -⟩ := (hd.withSubs m).rebuild
    rw [hr] at hb hk
    obtain ⟨-, hk', -⟩ := (hb.withSubs m').rebuild
    exact ⟨hk'.snapshot.trans hk.snapshot, hk'.configGroups.trans hk.configGroups⟩

/-- One that succeeds makes the snapshot anew if the rules changed. -/
theorem Ends.mirrored (h : d.Ends b none) (hm : d.Mirrored) : b.Mirrored := by
  cases h with
  | plain hr => exact hm.of_eq rfl rfl hr
  | done => exact mirrored_republish _

theorem Undone.runtime (h : d.Undone b) : b.subs.runtime = d.subs.runtime :=
  Subs.runtime_of_list h.list

def Calls (d b : Daemon) : Prop :=
  b = d ∨ ∃ o, (∀ fetch now, o ≠ .syncDue fetch now) ∧ b = (d.call o).1

theorem calls_handlePutSubscriptions (draw : SubDraw) (body : Option Json) :
    d.Calls (d.handlePutSubscriptions draw body).1 := by
  unfold handlePutSubscriptions
  split
  · exact .inl rfl
  · split
    · exact .inl rfl
    · split
      · exact .inl rfl
      · next built _ =>
        refine .inr ⟨.replace ((ensureUniqueSubscriptionIds draw.fresh built).map
          (ensureUniqueSubscriptionRuleIds draw.fresh)), by simp, ?_⟩
        dsimp only [call]
        split
        all_goals
          next hr =>
          rw [hr]

theorem calls_handleCreateSubscription (draw : SubDraw) (body : Option Json) :
    d.Calls (d.handleCreateSubscription draw body).1 := by
  unfold handleCreateSubscription
  split
  · exact .inl rfl
  · split_ifs
    · exact .inl rfl
    · split
      · exact .inl rfl
      · next s _ =>
        refine .inr ⟨.add (ensureUniqueSubscriptionRuleIds draw.fresh s), by simp, ?_⟩
        dsimp only [call]
        split
        all_goals
          next hr =>
          rw [hr]

theorem calls_handleDeleteSubscription (id : Bytes) :
    d.Calls (d.handleDeleteSubscription id).1 := by
  unfold handleDeleteSubscription
  split
  · exact .inl rfl
  · next id _ =>
    refine .inr ⟨.remove id, by simp, ?_⟩
    dsimp only [call]
    split
    all_goals
      next hr =>
      rw [hr]

theorem calls_handleSyncSubscription (fetch : Fetch) (id : Bytes) (body : Option (Option Json))
    (now : Nat) : d.Calls (d.handleSyncSubscription fetch id body now).1 := by
  unfold handleSyncSubscription
  split
  · exact .inl rfl
  · next id _ =>
    split
    · exact .inl rfl
    · refine .inr ⟨.sync fetch id now (body.join.map fun j => j.getString "url"), by simp, ?_⟩
      dsimp only [call]
      split
      all_goals
        next hr =>
        rw [hr]

/-! ## Matches, start and reload -/

/-- What a match leaves alone. -/
structure SameConfig (d b : Daemon) : Prop where
  heap : b.heap = d.heap
  user : b.user.groups = d.user.groups
  synth : b.synth.groups = d.synth.groups
  rulesets : b.synth.rulesets.length = d.synth.rulesets.length
  subs : b.subs = d.subs
  snapshot : b.snapshot = d.snapshot

theorem SameConfig.aligned (h : d.SameConfig b) (ha : d.Aligned) : b.Aligned := by
  refine ha.imp (fun he => ?_) fun hs => ?_
  · have hg := h.synth
    have hr := h.rulesets
    rw [he] at hg hr
    cases hb : b.synth with
    | mk groups rulesets =>
      rw [hb] at hg hr
      have hr : rulesets = [] := List.eq_nil_of_length_eq_zero hr
      rw [show groups = [] from hg, hr]
      rfl
  · rw [synthGroups, h.synth, h.heap, h.subs]
    exact hs

theorem SameConfig.mirrored (h : d.SameConfig b) (hm : d.Mirrored) : b.Mirrored := by
  refine hm.of_eq h.snapshot ?_ ?_
  · rw [configGroups, h.user, h.heap, configGroups]
  · rw [h.subs]

theorem addTo_user {i : Nat} {rs : RulesetObj} (hi : d.user.rulesets[i]? = some rs) (e : Entry) :
    d.addTo e (.user i) =
      d.setRuleset i (rs.add (d.heap.get rs.group) e d.nf).1
        (rs.add (d.heap.get rs.group) e d.nf).2 := by
  rw [addTo, hi]
  rfl

theorem addTo_synth {j : Nat} {rs : RulesetObj} (hj : d.synth.rulesets[j]? = some rs) (e : Entry) :
    d.addTo e (.synth j) =
      { d with
        synth := { d.synth with
          rulesets := d.synth.rulesets.set j (rs.add (d.heap.get rs.group) e d.nf).1 }
        nf := (rs.add (d.heap.get rs.group) e d.nf).2 } := by
  rw [addTo, hj]
  rfl

theorem addTo_user_none {i : Nat} (hi : d.user.rulesets[i]? = none) (e : Entry) :
    d.addTo e (.user i) = d := by
  rw [addTo, hi]
  rfl

theorem addTo_synth_none {j : Nat} (hj : d.synth.rulesets[j]? = none) (e : Entry) :
    d.addTo e (.synth j) = d := by
  rw [addTo, hj]
  rfl

theorem sameConfig_refl (d : Daemon) : d.SameConfig d := ⟨rfl, rfl, rfl, rfl, rfl, rfl⟩

theorem Coherent.addTo (h : d.Coherent) (e : Entry) (src : Source) :
    (d.addTo e src).Coherent ∧ d.SameConfig (d.addTo e src) := by
  cases src with
  | user i =>
    cases hi : d.user.rulesets[i]? with
    | none =>
      rw [addTo_user_none hi]
      exact ⟨h, d.sameConfig_refl⟩
    | some rs =>
      obtain ⟨hh, hf⟩ := (h.user.held rs (List.mem_of_getElem? hi)).add e d.nf
      have hset := h.user.set hi (RulesetObj.group_add e) hh
      rw [addTo_user hi, hf]
      exact ⟨⟨hset, h.synth, h.nodup, h.below, h.faults⟩, rfl, rfl, rfl, rfl, rfl, rfl⟩
  | synth j =>
    cases hj : d.synth.rulesets[j]? with
    | none =>
      rw [addTo_synth_none hj]
      exact ⟨h, d.sameConfig_refl⟩
    | some rs =>
      obtain ⟨hh, hf⟩ := (h.synth.held rs (List.mem_of_getElem? hj)).add e d.nf
      have hset := h.synth.set hj (RulesetObj.group_add e) hh
      rw [addTo_synth hj, hf]
      exact ⟨⟨h.user, hset, h.nodup, h.below, h.faults⟩, rfl, rfl, rfl, List.length_set, rfl, rfl⟩

theorem Coherent.onMatch (h : d.Coherent) (a : Pipeline.Action) :
    (d.onMatch a).Coherent ∧ d.SameConfig (d.onMatch a) := by
  unfold Daemon.onMatch
  cases d.findRuleset a.groupId with
  | none => exact ⟨h, d.sameConfig_refl⟩
  | some src => exact h.addTo _ src

theorem Coherent.createRulesets (h : d.Coherent) (gs : List Group) :
    (d.createRulesets gs).Coherent ∧ (d.createRulesets gs).deps = d.deps ∧
      (d.createRulesets gs).subs = d.subs ∧ (d.createRulesets gs).snapshot = d.snapshot ∧
      (d.createRulesets gs).configGroups = d.configGroups ++ gs := by
  induction gs generalizing d with
  | nil => exact ⟨h, rfl, rfl, rfl, (List.append_nil _).symm⟩
  | cons g gs ih =>
    have hfresh := h.fresh_alloc g
    have hpush : Coherent { d with
        heap := d.heap.alloc g, user := d.user.push d.heap.next (.new d.heap.next) } :=
      (h.alloc g).pushUser hfresh.alive hfresh.user hfresh.synth rfl
        (RulesetObj.idle_new _).held rfl
    obtain ⟨hc, hk, hsubs, hsnap, hg⟩ := ih hpush
    refine ⟨hc, hk, hsubs, hsnap, hg.trans ?_⟩
    unfold configGroups
    simp only [Registry.push, List.map_append, List.map_singleton,
      Heap.get_of_cell Heap.cell_alloc_next]
    rw [List.append_assoc, List.singleton_append]
    congr 1
    exact List.map_congr_left fun _ hp =>
      Heap.get_congr (Heap.cell_alloc_of_ne fun he => h.next_notMem_user (he ▸ hp))

theorem config_adopt (m : Subs) (ss : List Subscription) :
    (m.adopt ss).1.map Sub.config = ss := by
  induction ss generalizing m with
  | nil => rfl
  | cons s ss ih =>
    show s :: ((m.alloc s.rules.items).2.adopt ss).1.map Sub.config = s :: ss
    rw [ih]

theorem create_spec (k : Deps) (cfg : Config) (answers : List (Option Err)) :
    (create k cfg answers).Coherent ∧ (create k cfg answers).Aligned ∧
      (create k cfg answers).Mirrored ∧ (create k cfg answers).deps = k := by
  let a := Subs.adopt ⟨[], 0, []⟩ cfg.subscriptions.items
  let d : Daemon :=
    ⟨k, ⟨fun _ => none, 0⟩, .empty, { a.2 with list := a.1 }, .empty, false,
      rulesetSnapshotBuild cfg.groups.items cfg.subscriptions.items, ⟨answers, []⟩⟩
  have hd : d.Coherent :=
    ⟨Registry.coherent_empty, Registry.coherent_empty, List.nodup_nil, (fun _ hp => nomatch hp), rfl⟩
  obtain ⟨hc, hdeps, hsubs, hsnap, hg⟩ := hd.createRulesets cfg.groups.items
  have hm : (d.createRulesets cfg.groups.items).Mirrored := by
    unfold Mirrored
    rw [hsnap, hg, configSubs, hsubs]
    show _ = rulesetSnapshotBuild cfg.groups.items (a.1.map Sub.config)
    rw [config_adopt]
  obtain ⟨hc', hk, -⟩ := hc.rebuild
  have hs := congrArg Subs.runtime hk.subs
  exact ⟨hc', hc.aligned_rebuild, hm.of_eq hk.snapshot hk.configGroups hs, hk.deps.trans hdeps⟩

theorem launch_spec {k : Deps} {cfg : Config} {answers : List (Option Err)}
    (h : launch k cfg answers = .ok d) : d.Coherent ∧ d.Aligned ∧ d.Mirrored := by
  obtain ⟨hc, ha, hm, hk⟩ := create_spec k cfg answers
  unfold launch at h
  generalize create k cfg answers = c at hc ha hm hk h
  subst hk
  obtain ⟨hug, huh, huf⟩ := startAll_held c.nf hc.user.held
  dsimp only at h
  split at h
  · cases h
  · next user nf hu =>
    rw [hu] at hug huh huf
    obtain ⟨hsg, hsh, hsf⟩ := startAll_held nf hc.synth.held
    split at h
    · cases h
    · next synth nf' hs =>
      rw [hs] at hsg hsh hsf
      cases h
      have hsame : c.SameConfig { c with
          user := { c.user with rulesets := user }, synth := { c.synth with rulesets := synth },
          running := true, nf := nf' } :=
        ⟨rfl, rfl, rfl, by simpa using congrArg List.length hsg, rfl, rfl⟩
      refine ⟨⟨hc.user.of_rulesets hug huh, hc.synth.of_rulesets hsg hsh, hc.nodup, hc.below, ?_⟩,
        hsame.aligned ha, hsame.mirrored hm⟩
      exact hsf.trans (huf.trans hc.faults)

/-! ## Steps and runs -/

/-- `reload_config` works on the groups first, then on the subscriptions. -/
theorem Coherent.reloadConfig (h : d.Coherent) (doc : Option Doc) :
    ∃ b, d.OnGroups b ∧ b.Calls (d.reloadConfig doc) := by
  unfold Daemon.reloadConfig
  split
  · exact ⟨d, h.onGroups, .inl rfl⟩
  · split
    · exact ⟨d, h.onGroups, .inl rfl⟩
    · next cfg _ =>
      dsimp only
      generalize hb : (if cfg.groupsPresent then (d.clearGroups.addGroups cfg.groups.items).1
        else d) = b
      have hbg : d.OnGroups b := by
        rw [← hb]
        split_ifs
        · exact h.onGroups_clearGroups.trans
            (h.onGroups_clearGroups.coherent.onGroups_addGroups _)
        · exact h.onGroups
      refine ⟨b, hbg, ?_⟩
      split_ifs
      · exact .inr ⟨.replace cfg.subscriptions.items, by simp, rfl⟩
      · exact .inl rfl

/-- What one step does: something to the groups and then a call for the subscriptions, the sync of
all that is due, or a match. -/
theorem Coherent.step_cases (h : d.Coherent) (op : Op) :
    (∃ b, d.OnGroups b ∧ b.Calls (d.step op)) ∨
      (∃ fetch now, op = .syncDue fetch now ∧ d.step op = (d.call (.syncDue fetch now)).1) ∨
      ((d.step op).Coherent ∧ d.SameConfig (d.step op)) := by
  cases op with
  | request draw req => exact .inl ⟨_, h.onGroups_handle draw req, .inl rfl⟩
  | putSubscriptions draw body =>
    exact .inl ⟨d, h.onGroups, calls_handlePutSubscriptions draw body⟩
  | createSubscription draw body =>
    exact .inl ⟨d, h.onGroups, calls_handleCreateSubscription draw body⟩
  | deleteSubscription id => exact .inl ⟨d, h.onGroups, calls_handleDeleteSubscription id⟩
  | syncSubscription fetch id body now =>
    exact .inl ⟨d, h.onGroups, calls_handleSyncSubscription fetch id body now⟩
  | syncDue fetch now => exact .inr (.inl ⟨fetch, now, rfl, rfl⟩)
  | reload doc => exact .inl (h.reloadConfig doc)
  | onMatch a => exact .inr (.inr (h.onMatch a))

theorem Coherent.step (h : d.Coherent) (op : Op) :
    (d.step op).Coherent ∧ (d.Aligned → (d.step op).Aligned) := by
  rcases h.step_cases op with ⟨b, hg, hn | ⟨o, -, ho⟩⟩ | ⟨fetch, now, -, he⟩ | ⟨hc, hs⟩
  · rw [hn]
    exact ⟨hg.coherent, hg.aligned⟩
  · have he := hg.coherent.ends_call o
    rw [ho]
    exact ⟨he.coherent hg.coherent, fun ha => he.aligned hg.coherent (hg.aligned ha)⟩
  · have hends := h.ends_call (.syncDue fetch now)
    rw [he]
    exact ⟨hends.coherent h, fun ha => hends.aligned h ha⟩
  · exact ⟨hc, hs.aligned⟩

theorem Coherent.run (h : d.Coherent) (ha : d.Aligned) (ops : List Op) :
    (d.run ops).Coherent ∧ (d.run ops).Aligned := by
  induction ops generalizing d with
  | nil => exact ⟨h, ha⟩
  | cons op ops ih => exact ih (h.step op).1 ((h.step op).2 ha)

/-- The registry of a running daemon: the ruleset at each place is that of the group there, and
holds a set and a link exactly if its own flag and the flag of the group are set. -/
structure Registered (d : Daemon) : Prop where
  length : d.user.rulesets.length = d.user.groups.length
  group : ∀ (i : Nat) (rs : RulesetObj), d.user.rulesets[i]? = some rs → d.user.groups[i]? = some rs.group ∧
    (d.heap.cell rs.group).isSome
  set : ∀ rs ∈ d.user.rulesets,
    rs.ipset.isSome ↔ rs.enabled = true ∧ (d.heap.get rs.group).enable = true
  link : ∀ rs ∈ d.user.rulesets,
    rs.ipsetToLink.isSome ↔ rs.enabled = true ∧ (d.heap.get rs.group).enable = true

theorem Coherent.registered (h : d.Coherent) : d.Registered where
  length := h.user.length
  group i rs hi := by
    have hg : d.user.groups[i]? = some rs.group := by
      rw [h.user.getElem?, hi]
      rfl
    exact ⟨hg, h.user.alive _ (List.mem_of_getElem? hg)⟩
  set rs hm := by
    rw [← Option.isSome_map (f := IpsetObj.name), (h.user.held rs hm).set]
    split <;> simp_all
  link rs hm := by
    rw [(h.user.held rs hm).link]
    split <;> simp_all

/-- In every state a daemon reaches the registry is in order, and no add or sync has met a missing
set, no set or link has been forgotten. -/
theorem run_registered {k : Deps} {cfg : Config} {answers : List (Option Err)}
    (h : launch k cfg answers = .ok d) (ops : List Op) :
    (d.run ops).Registered ∧ (d.run ops).nf.faults = [] := by
  obtain ⟨hc, ha, -⟩ := launch_spec h
  obtain ⟨hc', -⟩ := hc.run ha ops
  exact ⟨hc'.registered, hc'.faults⟩

def loneGroup : Config :=
  ⟨⟨[⟨⟨0, 0, 0, 1⟩, str "a", [], str "wg0", true, .empty⟩], some 8⟩, true, .empty, false⟩

def linkFails : List (Option Err) := List.replicate 15 none ++ [some .sys]

/-- A daemon whose only group is replaced in this way. -/
theorem run_registered_link_fails :
    ∃ d, launch ⟨str "mt_", str "MT_"⟩ loneGroup linkFails = .ok d ∧
      (d.run [.request (Draw.counting 1)
        (.putGroup (str "00000001") (some (.obj [])) false)]).nf.answers = [] ∧
      (d.run [.request (Draw.counting 1)
        (.putGroup (str "00000001") (some (.obj [])) false)]).Registered ∧
      (d.run [.request (Draw.counting 1)
        (.putGroup (str "00000001") (some (.obj [])) false)]).nf.faults = [] := by
  refine ⟨_, rfl, by decide +kernel, ?_⟩
  exact @run_registered _ ⟨str "mt_", str "MT_"⟩ loneGroup linkFails rfl _

end Daemon

end MagiTrickle.Runtime
