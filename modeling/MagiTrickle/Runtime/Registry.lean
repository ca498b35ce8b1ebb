import MagiTrickle.Runtime.Handlers

/-!
# The two arrays stay in step

`rulesets[i]` points to `cfg->groups[i]`, the group is alive, and the ruleset
holds its set and its link exactly if both flags are set (`Coherent`). The
functions of `api/app.c` on groups keep this, and so does a rebuild of the
rulesets of the subscriptions, whatever the netfilter calls answer.

The groups of the two registries are distinct objects. Freeing or overwriting
one of them does not touch the others; this is what the lemmas on heaps are for.
-/

namespace MagiTrickle.Runtime

open Config Api Rules

/-! ## Heaps -/

namespace Heap

variable {h : Heap} {p q : Ptr} {g : Group} {ps : List Ptr}

theorem cell_alloc_of_ne (hq : q ≠ h.next) : (h.alloc g).cell q = h.cell q := if_neg hq

@[simp] theorem cell_alloc_next : (h.alloc g).cell h.next = some g := if_pos rfl

theorem cell_write_of_ne (hq : q ≠ p) : (h.write p g).cell q = h.cell q := if_neg hq

@[simp] theorem cell_write_self : (h.write p g).cell p = some g := if_pos rfl

theorem cell_free_of_not_mem (hq : q ∉ ps) : (h.free ps).cell q = h.cell q := if_neg hq

theorem isSome_of_free (hq : ((h.free ps).cell q).isSome) : (h.cell q).isSome := by
  unfold free at hq
  dsimp only at hq
  split at hq
  · cases hq
  · exact hq

theorem get_congr {h' : Heap} (hc : h'.cell p = h.cell p) : h'.get p = h.get p := by
  rw [get, get, hc]

theorem get_of_cell (hc : h.cell p = some g) : h.get p = g := by
  rw [get, hc]
  rfl

end Heap

/-! ## One registry -/

namespace Registry

/-- The rulesets point to the groups at the same places, which are alive, and hold their objects
exactly if both flags are set. -/
structure Coherent (k : Deps) (h : Heap) (r : Registry) : Prop where
  refers : r.rulesets.map RulesetObj.group = r.groups
  alive : ∀ p ∈ r.groups, (h.cell p).isSome
  held : ∀ rs ∈ r.rulesets, rs.Held k (h.get rs.group)

variable {k : Deps} {h h' : Heap} {r : Registry} {nf : Nf}

theorem Coherent.length (hr : r.Coherent k h) : r.rulesets.length = r.groups.length := by
  rw [← hr.refers, List.length_map]

theorem Coherent.getElem? (hr : r.Coherent k h) (i : Nat) :
    r.groups[i]? = r.rulesets[i]?.map RulesetObj.group := by
  rw [← hr.refers, List.getElem?_map]

theorem Coherent.mem_groups (hr : r.Coherent k h) {rs : RulesetObj} (hm : rs ∈ r.rulesets) :
    rs.group ∈ r.groups := by
  rw [← hr.refers]
  exact List.mem_map_of_mem hm

theorem coherent_empty : empty.Coherent k h :=
  ⟨rfl, fun _ hp => absurd hp List.not_mem_nil, fun _ hrs => absurd hrs List.not_mem_nil⟩

/-- Nothing but the cells of its groups matters to a registry. -/
theorem Coherent.frame (hr : r.Coherent k h) (hc : ∀ p ∈ r.groups, h'.cell p = h.cell p) :
    r.Coherent k h' where
  refers := hr.refers
  alive p hp := by
    rw [hc p hp]
    exact hr.alive p hp
  held rs hrs := by
    rw [Heap.get_congr (hc _ (hr.mem_groups hrs))]
    exact hr.held rs hrs

theorem Coherent.push (hr : r.Coherent k h) {p : Ptr} {rs : RulesetObj} (hp : (h.cell p).isSome)
    (hg : rs.group = p) (hh : rs.Held k (h.get p)) : (r.push p rs).Coherent k h where
  refers := by
    rw [Registry.push, List.map_append, hr.refers, List.map_singleton, hg]
  alive q hq := by
    rcases List.mem_append.mp hq with hq | hq
    · exact hr.alive q hq
    · rw [List.mem_singleton.mp hq]
      exact hp
  held rs' hrs' := by
    rcases List.mem_append.mp hrs' with hrs' | hrs'
    · exact hr.held rs' hrs'
    · rw [List.mem_singleton.mp hrs', hg]
      exact hh

theorem Coherent.of_rulesets (hr : r.Coherent k h) {rss : List RulesetObj}
    (hg : rss.map RulesetObj.group = r.rulesets.map RulesetObj.group)
    (hh : ∀ rs ∈ rss, rs.Held k (h.get rs.group)) : Coherent k h { r with rulesets := rss } where
  refers := hg.trans hr.refers
  alive := hr.alive
  held := hh

theorem Coherent.set (hr : r.Coherent k h) {i : Nat} {rs rs' : RulesetObj}
    (hi : r.rulesets[i]? = some rs) (hg : rs'.group = rs.group)
    (hh : rs'.Held k (h.get rs.group)) :
    Coherent k h { r with rulesets := r.rulesets.set i rs' } := by
  refine hr.of_rulesets ?_ fun q hq => ?_
  · obtain ⟨hlt, rfl⟩ := List.getElem?_eq_some_iff.mp hi
    rw [List.map_set, hg, ← List.map_set, List.set_getElem_self]
  · rcases List.mem_or_eq_of_mem_set hq with hq | rfl
    · exact hr.held q hq
    · rw [hg]
      exact hh

theorem Coherent.eraseIdx (hr : r.Coherent k h) (i : Nat) :
    Coherent k h ⟨r.groups.eraseIdx i, r.rulesets.eraseIdx i⟩ where
  refers := by
    rw [← hr.refers, List.eraseIdx_map]
  alive p hp := hr.alive p (List.mem_of_mem_eraseIdx hp)
  held rs hrs := hr.held rs (List.mem_of_mem_eraseIdx hrs)

/-! What the loops over an array do. -/

theorem disableAll_held (nf : Nf) {rss : List RulesetObj}
    (hh : ∀ rs ∈ rss, rs.Held k (h.get rs.group)) :
    (disableAll h rss nf).1.map RulesetObj.group = rss.map RulesetObj.group ∧
      (∀ rs ∈ (disableAll h rss nf).1, rs.Idle) ∧ (disableAll h rss nf).2.faults = nf.faults := by
  induction rss generalizing nf with
  | nil => exact ⟨rfl, fun _ hrs => absurd hrs List.not_mem_nil, rfl⟩
  | cons rs rss ih =>
    obtain ⟨hi, hf⟩ := (hh rs List.mem_cons_self).disable nf
    obtain ⟨hg', hi', hf'⟩ := ih (rs.disable (h.get rs.group) nf).2.2
      fun rs' hrs' => hh rs' (List.mem_cons_of_mem _ hrs')
    refine ⟨?_, fun rs' hrs' => ?_, hf'.trans hf⟩
    · simp only [disableAll, List.map_cons, hg', RulesetObj.group_disable]
    · rcases List.mem_cons.mp hrs' with rfl | hrs'
      · exact hi
      · exact hi' rs' hrs'

theorem shut_held (nf : Nf) {rss : List RulesetObj}
    (hh : ∀ rs ∈ rss, rs.Held k (h.get rs.group)) :
    (shut h rss nf).faults = nf.faults := by
  induction rss generalizing nf with
  | nil => rfl
  | cons rs rss ih =>
    obtain ⟨hi, hf⟩ := (hh rs List.mem_cons_self).disable nf
    have hrest := ih (rs.disable (h.get rs.group) nf).2.2
      fun rs' hrs' => hh rs' (List.mem_cons_of_mem _ hrs')
    rw [shut, hi.free]
    exact hrest.trans hf

end Registry

theorem startAll_held {k : Deps} {h : Heap} (nf : Nf) {rss : List RulesetObj}
    (hh : ∀ rs ∈ rss, rs.Held k (h.get rs.group)) :
    (startAll k h rss nf).1.map RulesetObj.group = rss.map RulesetObj.group ∧
      (∀ rs ∈ (startAll k h rss nf).1, rs.Held k (h.get rs.group)) ∧
      (startAll k h rss nf).2.2.faults = nf.faults := by
  induction rss generalizing nf with
  | nil => exact ⟨rfl, fun _ hrs => absurd hrs List.not_mem_nil, rfl⟩
  | cons rs rss ih =>
    have hrest := fun rs' hrs' => hh rs' (List.mem_cons_of_mem rs hrs')
    obtain ⟨hs, hf⟩ := (hh rs List.mem_cons_self).start nf
    have hg : (rs.start k (h.get rs.group) nf).1.group = rs.group := RulesetObj.group_start
    unfold startAll
    split
    · next rs' e nf' hr =>
      rw [hr] at hs hf hg
      dsimp only at hg hs hf
      refine ⟨by rw [List.map_cons, List.map_cons, hg], fun q hq => ?_, hf⟩
      rcases List.mem_cons.mp hq with rfl | hq
      · rw [hg]
        exact hs
      · exact hrest q hq
    · next rs' nf' hr =>
      rw [hr] at hs hf hg
      dsimp only at hg hs hf
      obtain ⟨hg', hh', hf'⟩ := ih nf' hrest
      refine ⟨by rw [List.map_cons, List.map_cons, hg, hg'], fun q hq => ?_, hf'.trans hf⟩
      rcases List.mem_cons.mp hq with rfl | hq
      · rw [hg]
        exact hs
      · exact hh' q hq

/-! ## The daemon -/

namespace Daemon

/-- Both registries are coherent, over objects that are all distinct, and nothing went wrong in
silence. -/
structure Coherent (d : Daemon) : Prop where
  user : d.user.Coherent d.deps d.heap
  synth : d.synth.Coherent d.deps d.heap
  nodup : (d.user.groups ++ d.synth.groups).Nodup
  below : ∀ p, (d.heap.cell p).isSome → p < d.heap.next
  faults : d.nf.faults = []

variable {d b : Daemon}

theorem Coherent.nodup_user (h : d.Coherent) : d.user.groups.Nodup :=
  (List.nodup_append.mp h.nodup).1

theorem Coherent.disjoint (h : d.Coherent) {p : Ptr} (hu : p ∈ d.user.groups) :
    p ∉ d.synth.groups :=
  fun hs => (List.nodup_append.mp h.nodup).2.2 p hu p hs rfl

theorem Coherent.next_notMem_user (h : d.Coherent) : d.heap.next ∉ d.user.groups :=
  fun hm => Nat.lt_irrefl _ (h.below _ (h.user.alive _ hm))

theorem Coherent.next_notMem_synth (h : d.Coherent) : d.heap.next ∉ d.synth.groups :=
  fun hm => Nat.lt_irrefl _ (h.below _ (h.synth.alive _ hm))

theorem Coherent.of_eq (h : d.Coherent) (hk : b.deps = d.deps) (hh : b.heap = d.heap)
    (hu : b.user = d.user) (hs : b.synth = d.synth) (hn : b.nf = d.nf) : b.Coherent := by
  constructor
  · rw [hk, hh, hu]
    exact h.user
  · rw [hk, hh, hs]
    exact h.synth
  · rw [hu, hs]
    exact h.nodup
  · rw [hh]
    exact h.below
  · rw [hn]
    exact h.faults

theorem Coherent.withNf (h : d.Coherent) {nf : Nf} (hf : nf.faults = d.nf.faults) :
    Coherent { d with nf := nf } :=
  ⟨h.user, h.synth, h.nodup, h.below, hf.trans h.faults⟩

theorem Coherent.republish (h : d.Coherent) : d.republish.Coherent := h.of_eq rfl rfl rfl rfl rfl

theorem Coherent.alloc (h : d.Coherent) (g : Group) :
    Coherent { d with heap := d.heap.alloc g } where
  user := h.user.frame fun p hp =>
    Heap.cell_alloc_of_ne fun he => h.next_notMem_user (he ▸ hp)
  synth := h.synth.frame fun p hp =>
    Heap.cell_alloc_of_ne fun he => h.next_notMem_synth (he ▸ hp)
  nodup := h.nodup
  below p hp := by
    by_cases he : p = d.heap.next
    · rw [he]
      exact Nat.lt_succ_self _
    · exact Nat.lt_succ_of_lt (h.below p (by rwa [← Heap.cell_alloc_of_ne (g := g) he]))
  faults := h.faults

theorem Coherent.free (h : d.Coherent) {ps : List Ptr} (hu : ∀ p ∈ d.user.groups, p ∉ ps)
    (hs : ∀ p ∈ d.synth.groups, p ∉ ps) : Coherent { d with heap := d.heap.free ps } where
  user := h.user.frame fun p hp => Heap.cell_free_of_not_mem (hu p hp)
  synth := h.synth.frame fun p hp => Heap.cell_free_of_not_mem (hs p hp)
  nodup := h.nodup
  below p hp := h.below p (Heap.isSome_of_free hp)
  faults := h.faults

/-! ## Groups -/

theorem Coherent.pushUser (h : d.Coherent) {p : Ptr} {rs : RulesetObj} {nf : Nf}
    (hp : (d.heap.cell p).isSome) (hu : p ∉ d.user.groups) (hs : p ∉ d.synth.groups)
    (hg : rs.group = p) (hh : rs.Held d.deps (d.heap.get p)) (hf : nf.faults = d.nf.faults) :
    Coherent { d with user := d.user.push p rs, nf := nf } where
  user := h.user.push hp hg hh
  synth := h.synth
  nodup := by
    show ((d.user.groups ++ [p]) ++ d.synth.groups).Nodup
    rw [List.append_assoc, List.singleton_append, List.nodup_middle]
    exact List.nodup_cons.mpr ⟨fun hm => (List.mem_append.mp hm).elim hu hs, h.nodup⟩
  below := h.below
  faults := hf.trans h.faults

theorem removeAt_push {p : Ptr} {rs : RulesetObj} {nf : Nf} :
    removeAt { d with user := d.user.push p rs, nf := nf } d.user.rulesets.length
        d.user.groups.length =
      { d with heap := d.heap.free [p], nf := rs.free nf } := by
  simp [removeAt, Registry.push, List.eraseIdx_append_of_length_le]

/-- The group taken out is at no other place. -/
theorem Coherent.notMem_eraseIdx (h : d.Coherent) {i : Nat} {rs : RulesetObj}
    (hi : d.user.rulesets[i]? = some rs) : rs.group ∉ d.user.groups.eraseIdx i := by
  have hgi : d.user.groups[i]? = some rs.group := by rw [h.user.getElem?, hi]; rfl
  obtain ⟨hlt, hget⟩ := List.getElem?_eq_some_iff.mp hgi
  rw [← hget, ← h.nodup_user.erase_getElem i hlt]
  exact h.nodup_user.not_mem_erase

theorem Coherent.removeAt (h : d.Coherent) {i : Nat} {rs : RulesetObj}
    (hi : d.user.rulesets[i]? = some rs) (hidle : rs.Idle) : (d.removeAt i i).Coherent := by
  have hgi : d.user.groups[i]? = some rs.group := by rw [h.user.getElem?, hi]; rfl
  have hmem : rs.group ∈ d.user.groups := List.mem_of_getElem? hgi
  have hnot := h.notMem_eraseIdx hi
  unfold Daemon.removeAt
  rw [hi, hgi]
  have hfree := hidle.free d.nf
  constructor
  · refine (h.user.eraseIdx i).frame fun p hp => Heap.cell_free_of_not_mem ?_
    simp only [Option.toList_some, List.mem_singleton]
    rintro rfl
    exact hnot hp
  · refine h.synth.frame fun p hp => Heap.cell_free_of_not_mem ?_
    simp only [Option.toList_some, List.mem_singleton]
    rintro rfl
    exact h.disjoint hmem hp
  · exact h.nodup.sublist ((List.eraseIdx_sublist _ _).append_right _)
  · exact fun p hp => h.below p (Heap.isSome_of_free hp)
  · dsimp only [Option.elim]
    rw [hfree]
    exact h.faults

/-- The object at `p` is alive and in neither registry. -/
structure Fresh (d : Daemon) (p : Ptr) : Prop where
  alive : (d.heap.cell p).isSome
  user : p ∉ d.user.groups
  synth : p ∉ d.synth.groups

theorem Coherent.fresh_alloc (h : d.Coherent) (g : Group) :
    Fresh { d with heap := d.heap.alloc g } d.heap.next where
  alive := by
    rw [Heap.cell_alloc_next]
    rfl
  user := h.next_notMem_user
  synth := h.next_notMem_synth

theorem Coherent.freeFresh (h : d.Coherent) {p : Ptr} (hp : d.Fresh p) :
    Coherent { d with heap := d.heap.free [p] } := by
  refine h.free (fun q hq he => ?_) fun q hq he => ?_
  · exact hp.user (List.mem_singleton.mp he ▸ hq)
  · exact hp.synth (List.mem_singleton.mp he ▸ hq)

theorem Coherent.findGroupById (h : d.Coherent) (id : Id) :
    d.findGroupById id = d.user.groups.findIdx? fun p => (d.heap.get p).id = id := by
  rw [← h.user.refers, List.findIdx?_map]
  rfl

theorem findGroupById_spec {id : Id} {i : Nat} (hi : d.findGroupById id = some i) :
    ∃ rs, d.user.rulesets[i]? = some rs ∧ (d.heap.get rs.group).id = id := by
  obtain ⟨hlt, hid, -⟩ := List.findIdx?_eq_some_iff_getElem.mp hi
  exact ⟨_, List.getElem?_eq_getElem hlt, by simpa using hid⟩

/-! ## Subscriptions -/

/-- A rebuild leaves the groups, the subscriptions and the snapshot alone. -/
structure Kept (d b : Daemon) : Prop where
  deps : b.deps = d.deps
  user : b.user = d.user
  subs : b.subs = d.subs
  running : b.running = d.running
  snapshot : b.snapshot = d.snapshot
  cell : ∀ p ∈ d.user.groups, b.heap.cell p = d.heap.cell p

theorem Kept.trans {c : Daemon} (h : d.Kept b) (h' : b.Kept c) : d.Kept c where
  deps := h'.deps.trans h.deps
  user := h'.user.trans h.user
  subs := h'.subs.trans h.subs
  running := h'.running.trans h.running
  snapshot := h'.snapshot.trans h.snapshot
  cell p hp := (h'.cell p (h.user ▸ hp)).trans (h.cell p hp)

theorem Kept.configGroups (h : d.Kept b) : b.configGroups = d.configGroups := by
  unfold Daemon.configGroups
  rw [h.user]
  exact List.map_congr_left fun p hp => Heap.get_congr (h.cell p hp)

theorem Kept.configSubs (h : d.Kept b) : b.configSubs = d.configSubs := by
  rw [Daemon.configSubs, h.subs, Daemon.configSubs]

theorem Coherent.freeSubRulesets (h : d.Coherent) :
    d.freeSubRulesets.Coherent ∧ d.Kept d.freeSubRulesets := by
  have hcell : ∀ p ∈ d.user.groups, (d.heap.free d.synth.groups).cell p = d.heap.cell p :=
    fun p hp => Heap.cell_free_of_not_mem (h.disjoint hp)
  refine ⟨⟨h.user.frame hcell, Registry.coherent_empty, ?_, ?_, ?_⟩, rfl, rfl, rfl, rfl, rfl, hcell⟩
  · show (d.user.groups ++ []).Nodup
    rw [List.append_nil]
    exact h.nodup_user
  · exact fun p hp => h.below p (Heap.isSome_of_free hp)
  · exact (Registry.shut_held d.nf h.synth.held).trans h.faults

/-- A group made up for a subscription, with its ruleset. -/
theorem Coherent.pushSynth (h : d.Coherent) {g : Group} {rs : RulesetObj} {nf : Nf}
    (hg : rs.group = d.heap.next) (hh : rs.Held d.deps g) (hf : nf.faults = d.nf.faults) :
    Coherent { d with heap := d.heap.alloc g, synth := d.synth.push d.heap.next rs, nf := nf } where
  user := (h.alloc g).user
  synth := by
    refine (h.alloc g).synth.push ?_ hg ?_
    · rw [Heap.cell_alloc_next]
      rfl
    · rw [Heap.get_of_cell Heap.cell_alloc_next]
      exact hh
  nodup := by
    show (d.user.groups ++ (d.synth.groups ++ [d.heap.next])).Nodup
    rw [← List.append_assoc, List.nodup_append]
    refine ⟨h.nodup, List.nodup_singleton _, ?_⟩
    rintro p hp _ hq rfl
    rw [List.mem_singleton.mp hq] at hp
    exact (List.mem_append.mp hp).elim h.next_notMem_user h.next_notMem_synth
  below := (h.alloc g).below
  faults := hf.trans h.faults

theorem Coherent.kept_pushSynth (h : d.Coherent) {g : Group} {r : Registry} {nf : Nf} :
    d.Kept { d with heap := d.heap.alloc g, synth := r, nf := nf } :=
  ⟨rfl, rfl, rfl, rfl, rfl, fun _ hp =>
    Heap.cell_alloc_of_ne fun he => h.next_notMem_user (he ▸ hp)⟩

def synthGroups (d : Daemon) : List Group := d.synth.groups.map d.heap.get

theorem Coherent.synthGroups_push (h : d.Coherent) {g : Group} {rs : RulesetObj} {nf : Nf} :
    synthGroups { d with heap := d.heap.alloc g, synth := d.synth.push d.heap.next rs, nf := nf } =
      d.synthGroups ++ [g] := by
  unfold synthGroups
  simp only [Registry.push, List.map_append, List.map_singleton,
    Heap.get_of_cell Heap.cell_alloc_next]
  congr 1
  refine List.map_congr_left fun p hp => Heap.get_congr (Heap.cell_alloc_of_ne fun he => ?_)
  exact h.next_notMem_synth (he ▸ hp)

/-- The loop of a rebuild. Where it succeeds there is one group for every subscription, where it
fails nothing is left. -/
theorem Coherent.buildSubRulesets (h : d.Coherent) (ss : List Sub) :
    (d.buildSubRulesets ss).1.Coherent ∧ d.Kept (d.buildSubRulesets ss).1 ∧
      ((d.buildSubRulesets ss).2 = none → (d.buildSubRulesets ss).1.synthGroups =
        d.synthGroups ++ ss.map fun s => Rules.subRuntimeGroup s.config) ∧
      ((d.buildSubRulesets ss).2 ≠ none → (d.buildSubRulesets ss).1.synth = .empty) := by
  induction ss generalizing d with
  | nil =>
    refine ⟨h, ⟨rfl, rfl, rfl, rfl, rfl, fun _ _ => rfl⟩, fun _ => ?_, fun hne => absurd rfl hne⟩
    exact (List.append_nil _).symm
  | cons s ss ih =>
    have hnew : (RulesetObj.new d.heap.next).Held d.deps (Rules.subRuntimeGroup s.config) :=
      (RulesetObj.idle_new _).held
    -- one subscription further, when its ruleset could be started
    have hnext : ∀ rs nf, rs.group = d.heap.next → rs.Held d.deps (Rules.subRuntimeGroup s.config) →
        nf.faults = d.nf.faults →
        let b := { d with heap := d.heap.alloc (Rules.subRuntimeGroup s.config),
                          synth := d.synth.push d.heap.next rs, nf := nf }
        (b.buildSubRulesets ss).1.Coherent ∧ d.Kept (b.buildSubRulesets ss).1 ∧
          ((b.buildSubRulesets ss).2 = none → (b.buildSubRulesets ss).1.synthGroups =
            d.synthGroups ++ (s :: ss).map fun s => Rules.subRuntimeGroup s.config) ∧
          ((b.buildSubRulesets ss).2 ≠ none → (b.buildSubRulesets ss).1.synth = .empty) := by
      intro rs nf hg hh hf b
      obtain ⟨hc, hk, hok, herr⟩ := ih (d := b) (h.pushSynth hg hh hf)
      refine ⟨hc, h.kept_pushSynth.trans hk, fun hn => ?_, herr⟩
      rw [hok hn, h.synthGroups_push, List.append_assoc, List.map_cons, List.singleton_append]
    unfold Daemon.buildSubRulesets
    dsimp only
    split_ifs
    · obtain ⟨hh, hf⟩ := hnew.start d.nf
      have hg : ((RulesetObj.new d.heap.next).start d.deps (Rules.subRuntimeGroup s.config)
          d.nf).1.group = d.heap.next := RulesetObj.group_start
      split
      · next rs nf hr =>
        rw [hr] at hh hf hg
        exact hnext rs nf hg hh hf
      · next rs e nf hr =>
        rw [hr] at hh hf hg
        obtain ⟨hc, hk⟩ := (h.pushSynth hg hh hf).freeSubRulesets
        exact ⟨hc, h.kept_pushSynth.trans hk, (fun hn => nomatch hn), fun _ => rfl⟩
    · exact hnext _ d.nf rfl hnew rfl

theorem Coherent.rebuild (h : d.Coherent) :
    d.rebuild.1.Coherent ∧ d.Kept d.rebuild.1 ∧
      (d.rebuild.2 = none → d.rebuild.1.synthGroups = d.configSubs.map Rules.subRuntimeGroup) ∧
      (d.rebuild.2 ≠ none → d.rebuild.1.synth = .empty) := by
  obtain ⟨hc, hk⟩ := h.freeSubRulesets
  obtain ⟨hc', hk', hok, herr⟩ := hc.buildSubRulesets d.subs.list
  refine ⟨hc', hk.trans hk', fun hn => ?_, herr⟩
  have hempty : d.freeSubRulesets.synthGroups = [] := rfl
  rw [Daemon.rebuild, hok hn, hempty, List.nil_append, configSubs, List.map_map]
  rfl

end Daemon

end MagiTrickle.Runtime
