import MagiTrickle.Api.Colours
import MagiTrickle.Runtime.Rollback

/-!
# The handlers on values and on objects

`Api` has the application as a value: a group with its flag and its objects, and
the answers of the kernel given as functions. `Runtime` has the same functions on
objects with addresses, with the answers in the order of the calls. An
application `Shows` a daemon if it has the same groups, flags and subscriptions.

Whatever the netfilter calls of an operation answer, there are answers for `Api`
with which its operation keeps `Shows` and gives the same reply. So what is
proved of every run of `Api` holds of the daemon (`run_shows`).
-/

namespace MagiTrickle.Runtime

open Config Api Rules

/-! ## One ruleset -/

namespace RulesetObj

/-- The entry of `Api` for a ruleset of this group. -/
def live (g : Group) (rs : RulesetObj) : Live Unit := ⟨g, rs.enabled, rs.ipset.map fun _ => ()⟩

variable {k : Deps} {g : Group} {rs : RulesetObj} {K : Kernel Unit}

theorem live_idle (h : rs.Idle) : rs.live g = ⟨g, false, none⟩ := by
  rw [live, h.down, h.set]
  rfl

theorem Held.live_disable (h : rs.Held k g) (nf : Nf) (hK : (K.disable g ()).1 = none) :
    ((rs.live g).disable K).1 = (rs.disable g nf).1.live g := by
  by_cases he : rs.enabled = true
  · by_cases hg : g.enable = true
    · obtain ⟨s, hs, -⟩ := h.ipset_isSome he hg
      rw [live_idle (disable_of_flags nf he hg).1]
      simp [Live.disable, live, he, hg, hs, hK]
    · simp [Live.disable, RulesetObj.disable, live, he, hg]
  · simp [Live.disable, RulesetObj.disable, live, he]

theorem Held.error_disable (h : rs.Held k g) (nf : Nf)
    (hK : (K.disable g ()).2 = (rs.disable g nf).2.1) :
    ((rs.live g).disable K).2 = (rs.disable g nf).2.1 := by
  by_cases he : rs.enabled = true
  · by_cases hg : g.enable = true
    · obtain ⟨s, hs, -⟩ := h.ipset_isSome he hg
      rw [← hK]
      simp [Live.disable, live, he, hg, hs]
    · simp [Live.disable, RulesetObj.disable, live, he, hg]
  · simp [Live.disable, RulesetObj.disable, live, he]

theorem Held.live_sync (h : rs.Held k g) (nf : Nf) (hK : (K.sync g ()).2 = (rs.sync g nf).1) :
    (rs.live g).sync K = (rs.live g, (rs.sync g nf).1) := by
  unfold Live.sync RulesetObj.sync live at *
  dsimp only at *
  split_ifs at * with he hg
  · rfl
  · rfl
  · obtain ⟨s, hs, -⟩ := h.ipset_isSome (by simpa using he) (by simpa using hg)
    simp only [hs, Option.map_some] at hK ⊢
    rw [hK]

/-- An idle ruleset that is enabled: it stays idle and there is an error, or it is up. -/
theorem Idle.enable_cases (h : rs.Idle) (k : Deps) (g : Group) (nf : Nf) :
    (∃ rs' e nf', rs.enable k g nf = (rs', some e, nf') ∧ g.enable = true ∧ rs'.Idle) ∨
      ∃ rs' nf', rs.enable k g nf = (rs', none, nf') ∧ rs'.enabled = true ∧ rs'.Held k g := by
  obtain ⟨-, hok, herr⟩ := h.enableLocked k g nf
  have hup : (rs.enableLocked k g nf).1.enabled = true := by
    unfold RulesetObj.enableLocked
    rw [if_neg (by simp [h.down])]
    split_ifs
    · rfl
    · split
      · rfl
      · split <;> rfl
  unfold RulesetObj.enable
  split
  · next rs' nf' hr =>
    rw [hr] at hok hup
    exact .inr ⟨rs', nf', rfl, hup, hok rfl⟩
  · next rs' e nf' hr =>
    rw [hr] at herr
    obtain ⟨hen, hg⟩ := herr (by simp)
    exact .inl ⟨_, e, _, rfl, hg, (disable_of_flags nf' hen hg).1⟩

/-- The kernel that answers so for every group. -/
def answering (e e' e'' : Option Err) : Kernel Unit :=
  ⟨fun _ => e.elim (.ok ()) .error, fun _ _ => ((), e'), fun _ _ => (none, e'')⟩

theorem Held.disable_answering (h : rs.Held k g) (nf : Nf) (e e' : Option Err) :
    (rs.live g).disable (answering e e' (rs.disable g nf).2.1) =
      ((rs.disable g nf).1.live g, (rs.disable g nf).2.1) :=
  Prod.ext (h.live_disable nf rfl) (h.error_disable nf rfl)

/-- The answers for the start of one ruleset. -/
def starting (e e' : Option Err) (g : Group) (K : Kernel Unit) : Prop :=
  K.enable g = e.elim (.ok ()) .error ∧ K.sync g () = ((), e')

theorem Idle.live_start (h : rs.Idle) (k : Deps) (g : Group) (nf : Nf) :
    ∃ e e', ((rs.start k g nf).2.1 = none → e = none ∧ e' = none) ∧ ∀ K, starting e e' g K →
      (rs.live g).start K = ((rs.start k g nf).1.live g, (rs.start k g nf).2.1) := by
  unfold RulesetObj.start
  rcases h.enable_cases k g nf with ⟨rs', e, nf', hr, hg, hi⟩ | ⟨rs', nf', hr, hen, hh⟩
  · rw [hr]
    refine ⟨some e, none, (fun hn => nomatch hn), fun K hK => ?_⟩
    rw [live_idle h, live_idle hi, Live.start, Live.enable]
    simp [hg, hK.1]
  · rw [hr]
    refine ⟨none, (rs'.sync g nf').1, fun hn => ⟨rfl, hn⟩, fun K hK => ?_⟩
    have hup : (rs.live g).enable K = (rs'.live g, none) := by
      rw [live_idle h, Live.enable, live, hen]
      cases hg : g.enable with
      | false =>
        have hs := hh.set
        rw [hg, Bool.and_false] at hs
        simp [by simpa using hs]
      | true =>
        obtain ⟨s, hs, -⟩ := hh.ipset_isSome hen hg
        simp [hK.1, hs]
    rw [Live.start, hup]
    exact hh.live_sync nf' (congrArg Prod.snd hK.2)

end RulesetObj

/-! ## The relation -/

/-- The entry of `Api` for a ruleset of a daemon. -/
def Daemon.live (d : Daemon) (rs : RulesetObj) : Live Unit := rs.live (d.heap.get rs.group)

theorem Daemon.group_live (d : Daemon) (rs : RulesetObj) :
    (d.live rs).group = d.heap.get rs.group := rfl

/-- The application has the groups of the daemon, with their flags and objects, and its
subscriptions. -/
structure Shows (a : App Unit) (d : Daemon) : Prop where
  groups : a.groups.items = d.user.rulesets.map d.live
  subscriptions : a.subscriptions.items = d.configSubs
  running : a.running = d.running

/-- Two calls leave states of which one shows the other, and return the same. -/
structure Agree {β : Type} (r : App Unit × β) (q : Daemon × β) : Prop where
  shows : Shows r.1 q.1
  reply : r.2 = q.2

variable {a b : App Unit} {d c : Daemon}

theorem Shows.of_eq (h : Shows a d) (hg : b.groups.items = a.groups.items)
    (hs : b.subscriptions.items = a.subscriptions.items) (hr : b.running = a.running) : Shows b d :=
  ⟨hg.trans h.groups, hs.trans h.subscriptions, hr.trans h.running⟩

theorem Shows.log (h : Shows a d) (st : List Store) : Shows (a.log st) d := h.of_eq rfl rfl rfl

theorem Shows.republish (h : Shows a d) : Shows a.republish d := h.of_eq rfl rfl rfl

theorem Shows.published (h : Shows a d) : Shows a.republish d.republish :=
  ⟨h.groups, h.subscriptions, h.running⟩

theorem Shows.maybeSave (h : Shows a d) (save : Bool) : Shows (a.maybeSave save) d := by
  unfold App.maybeSave
  split_ifs
  · exact h.of_eq rfl rfl rfl
  · exact h

/-- A change of the daemon that is not shown. -/
theorem Shows.kept (h : Shows a d) (hc : d.Coherent) (hu : c.user = d.user)
    (hcell : ∀ p ∈ d.user.groups, c.heap.cell p = d.heap.cell p) (hs : c.configSubs = d.configSubs)
    (hr : c.running = d.running) : Shows a c := by
  refine ⟨h.groups.trans ?_, h.subscriptions.trans hs.symm, h.running.trans hr.symm⟩
  rw [hu]
  refine List.map_congr_left fun rs hrs => ?_
  rw [Daemon.live, Daemon.live, Heap.get_congr (hcell _ (hc.user.mem_groups hrs))]

theorem Shows.configGroups (h : Shows a d) (hc : d.Coherent) : a.configGroups = d.configGroups := by
  rw [App.configGroups, h.groups, List.map_map, Daemon.configGroups, ← hc.user.refers, List.map_map]
  rfl

theorem findGroupById_map {f : RulesetObj → Live Unit} (hf : ∀ rs, (f rs).group = d.heap.get rs.group)
    (ha : a.groups.items = d.user.rulesets.map f) (id : Id) :
    a.findGroupById id = d.findGroupById id := by
  rw [App.findGroupById, ha, List.findIdx?_map]
  exact congrArg (fun q => d.user.rulesets.findIdx? q) (funext fun rs => by simp [hf])

theorem resolveGroup_map {f : RulesetObj → Live Unit} (hf : ∀ rs, (f rs).group = d.heap.get rs.group)
    (ha : a.groups.items = d.user.rulesets.map f) (groupID : Bytes) :
    a.resolveGroup groupID = (d.resolveGroup groupID).map fun r => (r.1, f r.2) := by
  unfold App.resolveGroup Daemon.resolveGroup
  cases Id.parse groupID with
  | none => rfl
  | some id =>
    simp only [findGroupById_map hf ha]
    cases d.findGroupById id with
    | none => rfl
    | some i =>
      simp only [ha, List.getElem?_map]
      cases d.user.rulesets[i]? with
      | none => rfl
      | some rs => rfl

theorem Shows.resolveGroup (h : Shows a d) (groupID : Bytes) :
    a.resolveGroup groupID = (d.resolveGroup groupID).map fun r => (r.1, d.live r.2) :=
  resolveGroup_map (fun _ => rfl) h.groups groupID

/-! What the handlers read of the groups and subscriptions is the same in `view`. -/

theorem Daemon.Coherent.configGroups_view (hc : d.Coherent) : d.view.configGroups = d.configGroups := by
  rw [App.configGroups, Daemon.view, List.map_map, Daemon.configGroups, ← hc.user.refers,
    List.map_map]
  rfl

/-- An entry of `view`, without its objects. -/
def Daemon.pairOf (d : Daemon) (rs : RulesetObj) : Live Unit :=
  ⟨d.heap.get rs.group, rs.enabled, none⟩

theorem resolveGroup_view (groupID : Bytes) :
    d.view.resolveGroup groupID = (d.resolveGroup groupID).map fun r => (r.1, d.pairOf r.2) :=
  resolveGroup_map (f := d.pairOf) (fun _ => rfl) rfl groupID

theorem Shows.handleGetGroups (h : Shows a d) (hc : d.Coherent) (withRules : Bool) :
    a.handleGetGroups withRules = d.view.handleGetGroups withRules := by
  rw [App.handleGetGroups, App.handleGetGroups, h.configGroups hc, hc.configGroups_view]

theorem Shows.handleGetGroup (h : Shows a d) (groupID : Bytes) (withRules : Bool) :
    a.handleGetGroup groupID withRules = d.view.handleGetGroup groupID withRules := by
  rw [App.handleGetGroup, App.handleGetGroup, h.resolveGroup, resolveGroup_view]
  cases d.resolveGroup groupID <;> rfl

theorem Shows.handleGetRules (h : Shows a d) (groupID : Bytes) :
    a.handleGetRules groupID = d.view.handleGetRules groupID := by
  rw [App.handleGetRules, App.handleGetRules, h.resolveGroup, resolveGroup_view]
  cases d.resolveGroup groupID <;> rfl

theorem Shows.handleGetRule (h : Shows a d) (groupID ruleID : Bytes) :
    a.handleGetRule groupID ruleID = d.view.handleGetRule groupID ruleID := by
  rw [App.handleGetRule, App.handleGetRule, h.resolveGroup, resolveGroup_view]
  cases d.resolveGroup groupID <;> rfl

theorem existingGroup_congr (hg : a.configGroups = b.configGroups) (req : Json) :
    a.existingGroup req = b.existingGroup req := by
  have hfind : ∀ (c : App Unit) (id : Id),
      (c.groups.items.find? fun l => l.group.id = id).map Live.group =
        c.configGroups.find? fun g => g.id = id := by
    intro c id
    rw [App.configGroups, List.find?_map]
    rfl
  unfold App.existingGroup
  split
  · rw [hfind, hfind, hg]
  · rfl

theorem buildGroups_congr (hg : a.configGroups = b.configGroups) (draw : Draw) (reqs : List Json)
    (i : Nat) : a.buildGroups draw i reqs = b.buildGroups draw i reqs := by
  induction reqs generalizing i with
  | nil => rfl
  | cons req reqs ih =>
    unfold App.buildGroups
    rw [existingGroup_congr hg, ih]

theorem buildSubscriptions_congr (hs : a.subscriptions.items = b.subscriptions.items)
    (draw : SubDraw) (reqs : List Json) (i : Nat) :
    a.buildSubscriptions draw i reqs = b.buildSubscriptions draw i reqs := by
  induction reqs generalizing i with
  | nil => rfl
  | cons req reqs ih =>
    unfold App.buildSubscriptions
    rw [hs, ih]

/-! ## The arrays of groups -/

theorem Shows.clearGroups (h : Shows a d) : Shows a.clearGroups d.clearGroups :=
  ⟨rfl, h.subscriptions, h.running⟩

/-- A group overwritten in place, with a change of its ruleset. -/
theorem Daemon.Coherent.live_write (hc : d.Coherent) {i : Nat} {rs rs' : RulesetObj}
    (hi : d.user.rulesets[i]? = some rs) (hg : rs'.group = rs.group) (g : Group) :
    (d.user.rulesets.set i rs').map
        (Daemon.live { d with heap := d.heap.write rs.group g }) =
      (d.user.rulesets.map d.live).set i (rs'.live g) := by
  obtain ⟨hlt, -⟩ := List.getElem?_eq_some_iff.mp hi
  refine List.ext_getElem? fun j => ?_
  rw [List.getElem?_map, List.getElem?_set, List.getElem?_set, List.getElem?_map]
  by_cases hij : i = j
  · subst hij
    rw [if_pos rfl, if_pos rfl, if_pos hlt, if_pos (by simpa using hlt), Option.map_some,
      Daemon.live, hg, Heap.get_of_cell Heap.cell_write_self]
  · rw [if_neg hij, if_neg hij]
    cases hj : d.user.rulesets[j]? with
    | none => rfl
    | some q =>
      have hne : q.group ≠ rs.group := by
        intro he
        rw [hc.ruleset_unique hi (List.mem_of_getElem? hj) he] at hj
        have hgi : d.user.groups[i]? = d.user.groups[j]? := by
          rw [hc.user.getElem?, hc.user.getElem?, hi, hj]
        have hlt' : i < d.user.groups.length := hc.user.length ▸ hlt
        exact hij ((List.getElem?_inj hlt' hc.nodup_user).mp hgi)
      rw [Option.map_some, Option.map_some, Daemon.live, Daemon.live,
        Heap.get_congr (Heap.cell_write_of_ne hne)]

/-- The entry at `i` is taken out and its group freed. -/
theorem Daemon.Coherent.live_erase (hc : d.Coherent) {i : Nat} {rs : RulesetObj}
    (hi : d.user.rulesets[i]? = some rs) :
    (d.user.rulesets.eraseIdx i).map (Daemon.live { d with heap := d.heap.free [rs.group] }) =
      (d.user.rulesets.map d.live).eraseIdx i := by
  rw [List.eraseIdx_map]
  refine List.map_congr_left fun q hq => ?_
  have hmem : q.group ∈ d.user.groups.eraseIdx i := by
    rw [← hc.user.refers, List.eraseIdx_map]
    exact List.mem_map_of_mem hq
  have hne : q.group ∉ [rs.group] := fun he =>
    hc.notMem_eraseIdx hi (List.mem_singleton.mp he ▸ hmem)
  rw [Daemon.live, Daemon.live, Heap.get_congr (Heap.cell_free_of_not_mem hne)]

theorem modify_const {α : Type} (l : List α) (i : Nat) (x : α) :
    (l.modify i fun _ => x) = l.set i x := by
  refine List.ext_getElem? fun j => ?_
  rw [List.getElem?_modify, List.getElem?_set]
  by_cases hij : i = j
  · subst hij
    by_cases hlt : i < l.length
    · simp [hlt]
    · simp [hlt]
  · simp [hij]

theorem Shows.setRuleset (h : Shows a d) (i : Nat) (rs' : RulesetObj) (nf : Nf) :
    Shows (a.modify i fun _ => d.live rs') (d.setRuleset i rs' nf) where
  groups := by
    show a.groups.items.modify i _ = (d.user.rulesets.set i rs').map d.live
    rw [modify_const, h.groups, List.map_set]
  subscriptions := h.subscriptions
  running := h.running

theorem Shows.write (h : Shows a d) (hc : d.Coherent) {i : Nat} {rs rs' : RulesetObj}
    (hi : d.user.rulesets[i]? = some rs) (hg : rs'.group = rs.group) (g : Group) (nf : Nf) :
    Shows (a.modify i fun _ => rs'.live g)
      (Daemon.setRuleset { d with heap := d.heap.write rs.group g }.republish i rs' nf) where
  groups := by
    show a.groups.items.modify i _ = _
    rw [modify_const, h.groups]
    exact (hc.live_write hi hg g).symm
  subscriptions := h.subscriptions
  running := h.running

theorem Shows.overwrite (h : Shows a d) (hc : d.Coherent) {i : Nat} {rs : RulesetObj}
    (hi : d.user.rulesets[i]? = some rs) (g : Group) :
    Shows (a.modify i fun _ => rs.live g)
      { d with heap := d.heap.write rs.group g }.republish where
  groups := by
    obtain ⟨hlt, hget⟩ := List.getElem?_eq_some_iff.mp hi
    have hw := hc.live_write hi rfl g
    rw [show d.user.rulesets.set i rs = d.user.rulesets by rw [← hget, List.set_getElem_self]] at hw
    show a.groups.items.modify i _ = _
    rw [modify_const, h.groups]
    exact hw.symm
  subscriptions := h.subscriptions
  running := h.running

theorem Shows.removeGroupById (h : Shows a d) (hc : d.Coherent) {i : Nat} {rs : RulesetObj}
    (hi : d.user.rulesets[i]? = some rs) {id : Id} (hfind : d.findGroupById id = some i) :
    Shows (a.removeGroupByIndex i) (d.removeGroupById id) := by
  have hgi : d.user.groups[i]? = some rs.group := by rw [hc.user.getElem?, hi]; rfl
  rw [Daemon.removeGroupById, hfind]
  show Shows _ (d.removeGroupByIndex i)
  rw [Daemon.removeGroupByIndex, if_pos (List.getElem?_eq_some_iff.mp hi).1]
  refine ⟨?_, h.subscriptions, h.running⟩
  show a.groups.items.eraseIdx i = (d.user.rulesets.eraseIdx i).map
    (Daemon.live { d with heap := d.heap.free d.user.groups[i]?.toList })
  rw [h.groups, hgi]
  exact (hc.live_erase hi).symm

/-! ## Requests for one group -/

theorem Shows.handleDeleteGroup (h : Shows a d) (hc : d.Coherent) (groupID : Bytes)
    (save : Bool) : ∃ K, Agree (a.handleDeleteGroup K groupID save) (d.handleDeleteGroup groupID) := by
  unfold App.handleDeleteGroup Daemon.handleDeleteGroup
  rw [h.resolveGroup]
  cases hres : d.resolveGroup groupID with
  | error r => exact ⟨.willing, h, rfl⟩
  | ok q =>
    obtain ⟨i, rs⟩ := q
    obtain ⟨hi, hfind⟩ := Daemon.resolveGroup_spec hres
    have hheld := hc.user.held rs (List.mem_of_getElem? hi)
    have hdis := hheld.disable_answering d.nf none none
    have hidle := hheld.disable d.nf
    have hgroup : (rs.disable (d.heap.get rs.group) d.nf).1.group = rs.group :=
      RulesetObj.group_disable
    refine ⟨RulesetObj.answering none none (rs.disable (d.heap.get rs.group) d.nf).2.1, ?_⟩
    dsimp only [Except.map, Daemon.live]
    rw [hdis]
    cases hr : rs.disable (d.heap.get rs.group) d.nf with
    | mk rs' r =>
      obtain ⟨e, nf⟩ := r
      rw [hr] at hgroup hidle
      have hset := h.setRuleset i rs' nf
      have hlive : rs'.live (d.heap.get rs.group) = d.live rs' := by
        rw [Daemon.live, show rs'.group = rs.group from hgroup]
      cases e with
      | some e =>
        dsimp only
        rw [hlive]
        exact ⟨hset, rfl⟩
      | none =>
        have hc' := (hc.onGroups_setRuleset hi hgroup hidle.1.held hidle.2).coherent
        have hi' : (d.setRuleset i rs' nf).user.rulesets[i]? = some rs' :=
          List.getElem?_set_self (List.getElem?_eq_some_iff.mp hi).1
        have hfind' : (d.setRuleset i rs' nf).findGroupById (d.heap.get rs.group).id = some i := by
          rw [hc'.findGroupById, ← hfind, hc.findGroupById]
          rfl
        have hrem : Shows (a.removeGroupByIndex i)
            ((d.setRuleset i rs' nf).removeGroupById (d.heap.get rs.group).id) := by
          refine (hset.removeGroupById hc' hi' hfind').of_eq ?_ rfl rfl
          show a.groups.items.eraseIdx i = (a.groups.items.modify i _).eraseIdx i
          rw [modify_const, List.eraseIdx_set_eq]
        exact ⟨hrem.maybeSave save, rfl⟩

/-- The end of `handle_put_group`, on a ruleset that was taken down. -/
theorem Shows.replaceGroup (h : Shows a d) (hc : d.Coherent) {i : Nat} {rs : RulesetObj}
    (hi : d.user.rulesets[i]? = some rs) (hidle : rs.Idle) (g : Group) (wasEnabled save : Bool) :
    ∃ e e', ∀ K, RulesetObj.starting e e' g K →
      Agree (a.replaceGroup K i (rs.live g) wasEnabled save) (d.replaceGroup i rs g wasEnabled) := by
  obtain ⟨e, e', -, hstart⟩ := hidle.live_start d.deps g d.nf
  refine ⟨e, e', fun K hK => ?_⟩
  unfold App.replaceGroup Daemon.replaceGroup
  dsimp only
  split_ifs
  · rw [hstart K hK]
    have hgroup : (rs.start d.deps g d.nf).1.group = rs.group := RulesetObj.group_start
    cases hr : rs.start d.deps g d.nf with
    | mk rs' r =>
      obtain ⟨e, nf⟩ := r
      rw [hr] at hgroup
      have hr' : rs.start { d with heap := d.heap.write rs.group g }.republish.deps g
        { d with heap := d.heap.write rs.group g }.republish.nf = (rs', e, nf) := hr
      have hw := h.write hc hi hgroup g nf
      rw [hr']
      cases e with
      | some e => exact ⟨hw.republish, rfl⟩
      | none => exact ⟨hw.republish.maybeSave save, rfl⟩
  · exact ⟨(h.overwrite hc hi g).republish.maybeSave save, rfl⟩

theorem Shows.handlePutGroup (h : Shows a d) (hc : d.Coherent) (draw : Draw) (groupID : Bytes)
    (body : Option Json) (save : Bool) :
    ∃ K, Agree (a.handlePutGroup K draw groupID body save) (d.handlePutGroup draw groupID body) := by
  unfold App.handlePutGroup Daemon.handlePutGroup
  rw [h.resolveGroup]
  cases hres : d.resolveGroup groupID with
  | error r => exact ⟨.willing, h, rfl⟩
  | ok q =>
    obtain ⟨i, rs⟩ := q
    cases body with
    | none => exact ⟨.willing, h, rfl⟩
    | some json =>
      obtain ⟨hi, -⟩ := Daemon.resolveGroup_spec hres
      have hheld := hc.user.held rs (List.mem_of_getElem? hi)
      have hidle := hheld.disable d.nf
      have hgroup : (rs.disable (d.heap.get rs.group) d.nf).1.group = rs.group :=
        RulesetObj.group_disable
      dsimp only [Except.map, Daemon.live]
      generalize hg : d.heap.get rs.group = g at *
      have hdis := fun e e' => hheld.disable_answering d.nf e e'
      cases hr : rs.disable g d.nf with
      | mk rs' r =>
        obtain ⟨e'', nf⟩ := r
        rw [hr] at hgroup hidle hdis
        have hset := h.setRuleset i rs' nf
        have hlive : d.live rs' = rs'.live g := by
          rw [Daemon.live, show rs'.group = rs.group from hgroup, hg]
        rw [hlive] at hset
        cases e'' with
        | some e'' =>
          refine ⟨RulesetObj.answering none none (some e''), ?_⟩
          rw [hdis]
          exact ⟨hset, rfl⟩
        | none =>
          dsimp only
          cases hb : groupFromReq json (some g) (draw.group 0) (draw.rule 0) with
          | error msg =>
            refine ⟨RulesetObj.answering none none none, ?_⟩
            rw [hdis]
            dsimp only [RulesetObj.live]
            rw [hb]
            exact ⟨hset, rfl⟩
          | ok built =>
            have hc' : (d.setRuleset i rs' nf).Coherent :=
              (hc.onGroups_setRuleset hi hgroup (hg ▸ hidle.1.held) hidle.2).coherent
            have hi' : (d.setRuleset i rs' nf).user.rulesets[i]? = some rs' :=
              List.getElem?_set_self (List.getElem?_eq_some_iff.mp hi).1
            obtain ⟨e, e', hrep⟩ := (hset.log (builtStores built)).replaceGroup hc' hi' hidle.1
              (groupMoveInto g built) rs.enabled save
            refine ⟨RulesetObj.answering e e' none, ?_⟩
            rw [hdis]
            dsimp only [RulesetObj.live]
            rw [hb]
            exact hrep _ ⟨rfl, rfl⟩

/-! ## Edits of the rules -/

theorem Shows.syncAfterEdit (h : Shows a d) (hc : d.Coherent) {i : Nat} {rs : RulesetObj}
    (hi : d.user.rulesets[i]? = some rs) (rules : CArray Rule) (save : Bool) (body : Option Json) :
    let g := { d.heap.get rs.group with rules := rules }
    ∃ K, Agree (a.syncAfterEdit K i (rs.live g) save body) (d.syncAfterEdit rs g body) := by
  intro g
  have hheld : rs.Held d.deps g := (hc.user.held rs (List.mem_of_getElem? hi)).congr rfl rfl
  refine ⟨RulesetObj.answering none (rs.sync g d.nf).1 none, ?_⟩
  have hw := h.overwrite hc hi g
  unfold App.syncAfterEdit Daemon.syncAfterEdit
  rw [hheld.live_sync d.nf rfl]
  cases hr : rs.sync g d.nf with
  | mk e nf =>
    have hr' : rs.sync g { d with heap := d.heap.write rs.group g }.republish.nf = (e, nf) := hr
    have hw' : Shows (a.modify i fun _ => rs.live g)
        { { d with heap := d.heap.write rs.group g }.republish with nf := nf } :=
      ⟨hw.groups, hw.subscriptions, hw.running⟩
    dsimp only
    rw [hr']
    cases e with
    | some e => exact ⟨hw'.republish, rfl⟩
    | none => exact ⟨hw'.republish.maybeSave save, rfl⟩

theorem Shows.handlePutRules (h : Shows a d) (hc : d.Coherent) (draw : Draw) (groupID : Bytes)
    (body : Option Json) (save : Bool) :
    ∃ K, Agree (a.handlePutRules K draw groupID body save) (d.handlePutRules draw groupID body) := by
  unfold App.handlePutRules Daemon.handlePutRules
  rw [h.resolveGroup]
  cases hres : d.resolveGroup groupID with
  | error r => exact ⟨.willing, h, rfl⟩
  | ok q =>
    obtain ⟨i, rs⟩ := q
    cases body with
    | none => exact ⟨.willing, h, rfl⟩
    | some json =>
      dsimp only [Except.map]
      cases json.getArray "rules" with
      | none => exact ⟨.willing, h, rfl⟩
      | some reqs =>
        dsimp only [Daemon.group_live]
        cases App.rulesFromReqStrict (d.heap.get rs.group).rules.items (draw.rule 0) 0 reqs with
        | error e => cases e <;> exact ⟨.willing, h, rfl⟩
        | ok rules =>
          exact h.syncAfterEdit hc (Daemon.resolveGroup_spec hres).1 (.exact rules) save _

theorem Shows.handleCreateRule (h : Shows a d) (hc : d.Coherent) (draw : Draw) (groupID : Bytes)
    (body : Option Json) (save : Bool) :
    ∃ K, Agree (a.handleCreateRule K draw groupID body save)
      (d.handleCreateRule draw groupID body) := by
  unfold App.handleCreateRule Daemon.handleCreateRule
  rw [h.resolveGroup]
  cases hres : d.resolveGroup groupID with
  | error r => exact ⟨.willing, h, rfl⟩
  | ok q =>
    obtain ⟨i, rs⟩ := q
    cases body with
    | none => exact ⟨.willing, h, rfl⟩
    | some json =>
      exact (h.log [(d.heap.get rs.group).rules.store]).syncAfterEdit hc (Daemon.resolveGroup_spec hres).1 _ save _

theorem Shows.handlePutRule (h : Shows a d) (hc : d.Coherent) (groupID ruleID : Bytes)
    (body : Option Json) (save : Bool) :
    ∃ K, Agree (a.handlePutRule K groupID ruleID body save)
      (d.handlePutRule groupID ruleID body) := by
  unfold App.handlePutRule Daemon.handlePutRule
  rw [h.resolveGroup]
  cases hres : d.resolveGroup groupID with
  | error r => exact ⟨.willing, h, rfl⟩
  | ok q =>
    obtain ⟨i, rs⟩ := q
    dsimp only [Except.map, Daemon.group_live]
    cases App.resolveRule (d.heap.get rs.group) ruleID with
    | error r => exact ⟨.willing, h, rfl⟩
    | ok q =>
      obtain ⟨j, r⟩ := q
      cases body with
      | none => exact ⟨.willing, h, rfl⟩
      | some json =>
        exact h.syncAfterEdit hc (Daemon.resolveGroup_spec hres).1 _ save _

theorem Shows.handleDeleteRule (h : Shows a d) (hc : d.Coherent) (groupID ruleID : Bytes)
    (save : Bool) :
    ∃ K, Agree (a.handleDeleteRule K groupID ruleID save) (d.handleDeleteRule groupID ruleID) := by
  unfold App.handleDeleteRule Daemon.handleDeleteRule
  rw [h.resolveGroup]
  cases hres : d.resolveGroup groupID with
  | error r => exact ⟨.willing, h, rfl⟩
  | ok q =>
    obtain ⟨i, rs⟩ := q
    dsimp only [Except.map, Daemon.group_live]
    cases App.resolveRule (d.heap.get rs.group) ruleID with
    | error r => exact ⟨.willing, h, rfl⟩
    | ok q =>
      obtain ⟨j, r⟩ := q
      exact h.syncAfterEdit hc (Daemon.resolveGroup_spec hres).1 _ save _

/-! ## Groups added one by one -/

/-- A new group with its ruleset at the end of the arrays. -/
theorem Shows.push (h : Shows a d) (p : Ptr) (rs : RulesetObj) (nf : Nf) :
    Shows (a.pushGroup (d.live rs)) { d with user := d.user.push p rs, nf := nf } where
  groups := by
    show a.groups.items ++ [d.live rs] = (d.user.rulesets ++ [rs]).map d.live
    rw [h.groups, List.map_append, List.map_singleton]
  subscriptions := h.subscriptions
  running := h.running

theorem Shows.freeFresh (h : Shows a d) (hc : d.Coherent) {p : Ptr} (hp : d.Fresh p) (nf : Nf) :
    Shows a { d with heap := d.heap.free [p], nf := nf } :=
  h.kept hc rfl (fun _ hq => Heap.cell_free_of_not_mem fun he =>
    hp.user (List.mem_singleton.mp he ▸ hq)) rfl rfl

theorem Shows.addGroup (h : Shows a d) (hc : d.Coherent) {p : Ptr} (hp : d.Fresh p) :
    ∃ e e', ∀ K, RulesetObj.starting e e' (d.heap.get p) K →
      Agree (a.addGroup K (d.heap.get p)) (d.addGroup p) := by
  obtain ⟨e, e', -, hstart⟩ := (RulesetObj.idle_new p).live_start d.deps (d.heap.get p) d.nf
  refine ⟨e, e', fun K hK => ?_⟩
  have hany : (a.groups.items.any fun l => decide (l.group.id = (d.heap.get p).id)) =
      d.configGroups.any fun g' => g'.id = (d.heap.get p).id := by
    rw [← h.configGroups hc, App.configGroups, List.any_map]
    rfl
  have hnew : Live.new (d.heap.get p) = (RulesetObj.new p).live (d.heap.get p) := rfl
  have hheld := ((RulesetObj.idle_new p).held (k := d.deps) (g := d.heap.get p)).start d.nf
  have hgroup : ((RulesetObj.new p).start d.deps (d.heap.get p) d.nf).1.group = p :=
    RulesetObj.group_start
  unfold App.addGroup Daemon.addGroup
  dsimp only
  rw [hany, hnew, hstart K hK, h.running]
  split_ifs
  · exact ⟨h.freeFresh hc hp d.nf, rfl⟩
  · exact ⟨h.freeFresh hc hp d.nf, rfl⟩
  · cases hr : (RulesetObj.new p).start d.deps (d.heap.get p) d.nf with
    | mk rs r =>
      obtain ⟨e, nf⟩ := r
      rw [hr] at hgroup hheld
      have hlive : rs.live (d.heap.get p) = d.live rs := by
        rw [Daemon.live, show rs.group = p from hgroup]
      cases e with
      | none =>
        dsimp only
        rw [hlive]
        exact ⟨(h.push p rs nf).published, rfl⟩
      | some e =>
        refine ⟨?_, rfl⟩
        dsimp only
        rw [Daemon.removeAt_push, (hheld.1.disable nf).1.free]
        refine (h.freeFresh hc hp _).of_eq ?_ rfl rfl
        show (a.groups.items ++ [_]).eraseIdx a.groups.items.length = a.groups.items
        rw [List.eraseIdx_append_of_length_le (Nat.le_refl _)]
        simp
  · exact ⟨(h.push p (.new p) d.nf).published, rfl⟩

theorem start_starting {e e' : Option Err} {g : Group} {K K' : Kernel Unit}
    (h : RulesetObj.starting e e' g K) (h' : RulesetObj.starting e e' g K') :
    (Live.new g).start K = (Live.new g).start K' := by
  have hen : (Live.new g).enable K = (Live.new g).enable K' := by
    rw [Live.enable, Live.enable, Live.new, h.1, h'.1]
  rw [Live.start, Live.start, hen]
  cases hr : (Live.new g).enable K' with
  | mk l r =>
    cases r with
    | some e => rfl
    | none =>
      have hl : l.group = g := by
        rw [← show ((Live.new g).enable K').1 = l from by rw [hr], Live.group_enable, Live.new]
      dsimp only
      unfold Live.sync
      rw [hl]
      cases l.objects with
      | none => rfl
      | some o =>
        have hs : K.sync g o = K'.sync g o := h.2.trans h'.2.symm
        dsimp only
        rw [hs]

theorem addGroup_start {g : Group} {K K' : Kernel Unit}
    (h : (Live.new g).start K = (Live.new g).start K') : a.addGroup K g = a.addGroup K' g := by
  rw [App.addGroup, App.addGroup, h]

/-- The kernels start every group alike whose id is not among these. -/
def SameOff (ids : List Id) (K K' : Kernel Unit) : Prop :=
  ∀ g : Group, g.id ∉ ids → (Live.new g).start K = (Live.new g).start K'

theorem SameOff.addGroup {K K' : Kernel Unit} (hk : SameOff (a.configGroups.map Group.id) K K')
    (g : Group) : a.addGroup K g = a.addGroup K' g := by
  by_cases hm : g.id ∈ a.configGroups.map Group.id
  · have hany : (a.groups.items.any fun l => decide (l.group.id = g.id)) = true := by
      simpa [App.configGroups, List.any_eq_true] using hm
    rw [App.addGroup, App.addGroup, if_pos hany, if_pos hany]
  · exact addGroup_start (hk g hm)

/-- The kernel is not asked about a group whose id is taken. -/
theorem SameOff.addGroups {K K' : Kernel Unit} (hk : SameOff (a.configGroups.map Group.id) K K')
    (gs : List Group) : a.addGroups K gs = a.addGroups K' gs := by
  induction gs generalizing a with
  | nil => rfl
  | cons g gs ih =>
    unfold App.addGroups
    rw [hk.addGroup g]
    rcases App.addGroup_cases (a := a) (k := K') g with
      ⟨-, e, he⟩ | ⟨-, ⟨b, hb, -, hitems, -⟩ | ⟨b, e, he, -⟩⟩
    · rw [he]
    · rw [hb]
      refine ih fun g' hg' => hk g' fun hm => hg' ?_
      rw [App.configGroups, hitems, List.map_append, List.map_append]
      exact List.mem_append_left _ hm
    · rw [he]

/-- The answers of `K`, but these for the groups with this id. -/
def answerFor (K : Kernel Unit) (id : Id) (e e' : Option Err) : Kernel Unit :=
  { K with
    enable := fun g => if g.id = id then e.elim (.ok ()) .error else K.enable g
    sync := fun g o => if g.id = id then ((), e') else K.sync g o }

theorem starting_answerFor (K : Kernel Unit) (g : Group) (e e' : Option Err) :
    RulesetObj.starting e e' g (answerFor K g.id e e') :=
  ⟨if_pos rfl, if_pos rfl⟩

theorem sameOff_answerFor (K : Kernel Unit) (id : Id) (e e' : Option Err) {ids : List Id}
    (h : id ∈ ids) : SameOff ids (answerFor K id e e') K := by
  intro g hg
  have hne : g.id ≠ id := fun he => hg (he ▸ h)
  unfold Live.start Live.enable Live.new answerFor
  dsimp only
  rw [if_neg hne]
  cases hen : g.enable with
  | false => simp [Live.sync, hen]
  | true =>
    cases K.enable g with
    | ok o => simp [Live.sync, hne]
    | error e => rfl

theorem Shows.addGroups (h : Shows a d) (hc : d.Coherent) (gs : List Group) :
    ∃ K, (∀ g, K.disable g () = (none, none)) ∧ Agree (a.addGroups K gs) (d.addGroups gs) := by
  induction gs generalizing a d with
  | nil => exact ⟨.willing, fun _ => rfl, h, rfl⟩
  | cons g gs ih =>
    have hal := hc.onGroups_alloc g
    have hfresh := hc.fresh_alloc g
    have hshow : Shows a { d with heap := d.heap.alloc g } :=
      h.kept hc rfl (fun _ hp =>
        Heap.cell_alloc_of_ne fun he => hc.next_notMem_user (he ▸ hp)) rfl rfl
    obtain ⟨e, e', hadd⟩ := hshow.addGroup hal.coherent hfresh
    have hget : (d.heap.alloc g).get d.heap.next = g := Heap.get_of_cell Heap.cell_alloc_next
    dsimp only at hadd
    rw [hget] at hadd
    have hfirst := hadd (RulesetObj.answering e e' none) ⟨rfl, rfl⟩
    have hon := hal.coherent.onGroups_addGroup hfresh
    unfold App.addGroups Daemon.addGroups
    cases hb : a.addGroup (RulesetObj.answering e e' none) g with
    | mk b r =>
      cases hq : Daemon.addGroup { d with heap := d.heap.alloc g } d.heap.next with
      | mk d' r' =>
        rw [hb, hq] at hfirst
        rw [hq] at hon
        obtain ⟨hbd, rfl⟩ := hfirst
        cases r with
        | some e'' =>
          refine ⟨RulesetObj.answering e e' none, fun _ => rfl, ?_⟩
          rw [hb]
          exact ⟨hbd, rfl⟩
        | none =>
          obtain ⟨K, hdis, hK⟩ := ih hbd hon.coherent
          have hid : g.id ∈ b.configGroups.map Group.id := by
            rcases App.addGroup_cases (a := a) (k := RulesetObj.answering e e' none) g with
              ⟨-, e, he⟩ | ⟨-, ⟨b', hb', -, hitems, -⟩ | ⟨b', e, he, -⟩⟩
            · rw [hb] at he
              cases he
            · rw [hb] at hb'
              cases hb'
              rw [App.configGroups, hitems, List.map_append, List.map_append]
              refine List.mem_append_right _ ?_
              simp [App.group_bringUp]
            · rw [hb] at he
              cases he
          have hstart : (Live.new g).start (answerFor K g.id e e') =
              (Live.new g).start (RulesetObj.answering e e' none) :=
            start_starting (starting_answerFor K g e e') ⟨rfl, rfl⟩
          refine ⟨answerFor K g.id e e', hdis, ?_⟩
          rw [addGroup_start hstart, hb]
          dsimp only
          rw [(sameOff_answerFor K g.id e e' hid).addGroups gs]
          exact hK

theorem Shows.disableAll (h : Shows a d) (hc : d.Coherent) {K : Kernel Unit}
    (hK : ∀ g, K.disable g () = (none, none)) :
    Shows (a.disableAll K) { d with
      user := { d.user with rulesets := (Registry.disableAll d.heap d.user.rulesets d.nf).1 }
      nf := (Registry.disableAll d.heap d.user.rulesets d.nf).2 } := by
  refine ⟨?_, h.subscriptions, h.running⟩
  show a.groups.items.map _ = (Registry.disableAll d.heap d.user.rulesets d.nf).1.map d.live
  rw [h.groups]
  have hheld := hc.user.held
  generalize d.user.rulesets = rss at hheld
  generalize d.nf = nf
  induction rss generalizing nf with
  | nil => rfl
  | cons rs rss ih =>
    have hfirst := (hheld rs List.mem_cons_self).live_disable nf (congrArg Prod.fst (hK _))
    have hrest := ih (fun q hq => hheld q (List.mem_cons_of_mem _ hq))
      (rs.disable (d.heap.get rs.group) nf).2.2
    rw [Registry.disableAll, List.map_cons, List.map_cons, List.map_cons, hrest]
    congr 1
    rw [Daemon.live, Daemon.live, RulesetObj.group_disable]
    exact hfirst

theorem disableAll_willing {K : Kernel Unit} (hK : ∀ g, K.disable g () = (none, none)) :
    a.disableAll K = a.disableAll .willing := by
  have hdis : K.disable = Kernel.willing.disable := funext fun g => funext fun _ => hK g
  have hlive : ∀ l : Live Unit, l.disable K = l.disable .willing := by
    intro l
    rw [Live.disable, Live.disable, hdis]
  simp only [App.disableAll, hlive]

/-! ## Requests for all groups -/

theorem Shows.handleCreateGroup (h : Shows a d) (hc : d.Coherent) (draw : Draw)
    (body : Option Json) (save : Bool) :
    ∃ K, Agree (a.handleCreateGroup K draw body save) (d.handleCreateGroup draw body) := by
  unfold App.handleCreateGroup Daemon.handleCreateGroup
  cases body with
  | none => exact ⟨.willing, h, rfl⟩
  | some json =>
    dsimp only
    cases groupFromReq json none (draw.group 0) (draw.rule 0) with
    | error msg => exact ⟨.willing, h, rfl⟩
    | ok g =>
      obtain ⟨K, -, hK⟩ := (h.log (builtStores g)).addGroups hc [g]
      have hone : ∀ a : App Unit, a.addGroups K [g] = a.addGroup K g := by
        intro a
        rw [App.addGroups]
        cases a.addGroup K g with
        | mk b r => cases r <;> rfl
      rw [hone] at hK
      refine ⟨K, ?_⟩
      dsimp only
      cases hb : (a.log (builtStores g)).addGroup K g with
      | mk b r =>
        cases hq : d.addGroups [g] with
        | mk d' r' =>
          rw [hb, hq] at hK
          obtain ⟨hbd, rfl⟩ := hK
          cases r with
          | some e => exact ⟨hbd, rfl⟩
          | none => exact ⟨hbd.maybeSave save, rfl⟩

theorem Shows.handlePutGroups (h : Shows a d) (hc : d.Coherent) (draw : Draw)
    (body : Option Json) (save : Bool) :
    ∃ K, Agree (a.handlePutGroups K draw body save) (d.handlePutGroups draw body) := by
  unfold App.handlePutGroups Daemon.handlePutGroups
  cases body with
  | none => exact ⟨.willing, h, rfl⟩
  | some json =>
    dsimp only
    cases json.getArray "groups" with
    | none => exact ⟨.willing, h, rfl⟩
    | some reqs =>
      obtain ⟨hg, hidle, hf⟩ := Registry.disableAll_held d.nf hc.user.held
      have hc' := (hc.onGroups_rulesets hg (fun rs hrs => (hidle rs hrs).held) hf).coherent
      have hdown := fun K hK => h.disableAll hc (K := K) hK
      dsimp only
      generalize hd : ({ d with
        user := { d.user with rulesets := (Registry.disableAll d.heap d.user.rulesets d.nf).1 }
        nf := (Registry.disableAll d.heap d.user.rulesets d.nf).2 } : Daemon) = d' at *
      have hbuild : ∀ K, (∀ g, K.disable g () = (none, none)) →
          (a.disableAll K).buildGroups draw 0 reqs = d'.view.buildGroups draw 0 reqs :=
        fun K hK => buildGroups_congr
          (((hdown K hK).configGroups hc').trans hc'.configGroups_view.symm) draw reqs 0
      cases hb : d'.view.buildGroups draw 0 reqs with
      | mk built r =>
        rw [hb] at hbuild
        cases r with
        | some msg =>
          refine ⟨.willing, ?_⟩
          rw [hbuild .willing fun _ => rfl]
          exact ⟨(hdown .willing fun _ => rfl).log _, rfl⟩
        | none =>
          have hclear := ((hdown .willing fun _ => rfl).log (built.flatMap builtStores)).clearGroups
          obtain ⟨K, hdis, hK⟩ := hclear.addGroups hc'.onGroups_clearGroups.coherent built
          refine ⟨K, ?_⟩
          rw [hbuild K hdis, disableAll_willing hdis]
          dsimp only
          cases hq : d'.clearGroups.addGroups built with
          | mk c r' =>
            cases hp : ((a.disableAll .willing).log
                (built.flatMap builtStores)).clearGroups.addGroups K built with
            | mk b r =>
              rw [hp, hq] at hK
              obtain ⟨hbc, rfl⟩ := hK
              cases r with
              | some e => exact ⟨hbc, rfl⟩
              | none => exact ⟨hbc.maybeSave save, rfl⟩

/-- Every request for groups and rules: for some answers of the kernel the two leave states of
which one shows the other, and give the same reply. -/
theorem Shows.handle (h : Shows a d) (hc : d.Coherent) (draw : Draw) (req : Request) :
    ∃ K, Agree (a.handle K draw req) (d.handle draw req) := by
  cases req with
  | putGroups body save => exact h.handlePutGroups hc draw body save
  | createGroup body save => exact h.handleCreateGroup hc draw body save
  | putGroup groupID body save => exact h.handlePutGroup hc draw groupID body save
  | deleteGroup groupID save => exact h.handleDeleteGroup hc groupID save
  | putRules groupID body save => exact h.handlePutRules hc draw groupID body save
  | createRule groupID body save => exact h.handleCreateRule hc draw groupID body save
  | putRule groupID ruleID body save => exact h.handlePutRule hc groupID ruleID body save
  | deleteRule groupID ruleID save => exact h.handleDeleteRule hc groupID ruleID save
  | getGroups withRules => exact ⟨.willing, h, h.handleGetGroups hc withRules⟩
  | getGroup groupID withRules => exact ⟨.willing, h, h.handleGetGroup groupID withRules⟩
  | getRules groupID => exact ⟨.willing, h, h.handleGetRules groupID⟩
  | getRule groupID ruleID => exact ⟨.willing, h, h.handleGetRule groupID ruleID⟩

end MagiTrickle.Runtime
