import MagiTrickle.Runtime.ApiViews

/-!
# Runs of the daemon, shown by `Api`

The functions on subscriptions agree with those of `Api` when the failures given
to `Api` are the ones the rebuilds meet. With the start (`launch_shows`) and one
step (`Shows.step`) this gives a run of `Api` for every run of a daemon
(`run_shows`), so an invariant of `Api` is one of the daemon: the groups in its
configuration have normal colours in every state (`run_normalColor`).
-/

namespace MagiTrickle.Runtime

open Config Api Rules

variable {a b : App Unit} {d c : Daemon}

/-! ## Rebuilds -/

/-- The failure that `Api` is told of. -/
def refused (e : Option Err) : Option (Nat × Err) := e.map fun e => (0, e)

theorem rebuild_refused (a : App Unit) (e : Option Err) :
    ∃ st, a.rebuildSubscriptionRulesets (refused e) = (a.log st, e) := by
  cases e with
  | none => exact ⟨_, rfl⟩
  | some e => exact ⟨_, rfl⟩

/-- A rebuild, told to `Api` with the error it had. -/
theorem Shows.rebuild (h : Shows a d) (hc : d.Coherent) {e : Option Err} (hr : d.rebuild = (c, e)) :
    ∃ st, a.rebuildSubscriptionRulesets (refused e) = (a.log st, e) ∧ c.Coherent ∧
      Shows (a.log st) c := by
  obtain ⟨st, hst⟩ := rebuild_refused a e
  obtain ⟨hcc, hk, -⟩ := hc.rebuild
  rw [hr] at hcc hk
  exact ⟨st, hst, hcc, (h.kept hc hk.user hk.cell hk.configSubs hk.running).log st⟩

theorem Shows.withSubs (h : Shows a d) {subs : CArray Subscription} {m : Subs}
    (hs : subs.items = m.list.map Sub.config) :
    Shows { a with subscriptions := subs } { d with subs := m } :=
  ⟨h.groups, hs, h.running⟩

/-- The end of an operation whose rebuild went well: arrays are released, the snapshot is made
anew. -/
theorem Shows.done (h : Shows a c) {m : Subs} (hm : m.list = c.subs.list) :
    Shows a.republish (Daemon.republish { c with subs := m }) := by
  refine ⟨h.groups, h.subscriptions.trans ?_, h.running⟩
  show c.subs.list.map Sub.config = m.list.map Sub.config
  rw [hm]

theorem Shows.save (h : Shows a d) : Shows a.save d := h.of_eq rfl rfl rfl

/-- The rebuild after a rollback: it is told to `Api` as one that succeeds. -/
theorem Shows.rollback (h : Shows a c) (hc : c.Coherent) :
    Shows (a.rebuildSubscriptionRulesets none).1 c.rebuild.1 := by
  obtain ⟨-, hk, -⟩ := hc.rebuild
  exact (h.kept hc hk.user hk.cell hk.configSubs hk.running).log _

/-! ## The functions on subscriptions -/

theorem Shows.addSubscription (h : Shows a d) (hc : d.Coherent) (s : Subscription) :
    ∃ f f', Agree (a.addSubscription s f f') (d.addSubscription s) := by
  have hany : (a.subscriptions.items.any fun s' => decide (s'.id = s.id)) =
      d.configSubs.any fun s' => s'.id = s.id := by
    rw [h.subscriptions]
  unfold App.addSubscription Daemon.addSubscription
  dsimp only
  simp only [hany]
  split_ifs
  · refine ⟨none, none, h.kept hc rfl (fun _ _ => rfl) ?_ rfl, rfl⟩
    simp [Daemon.configSubs]
  · have hlist : d.subs.list.map Sub.config = a.subscriptions.items := h.subscriptions.symm
    have hpush : Shows (a.pushSubscription s) { d with subs :=
        { (d.subs.alloc s.rules.items).2 with
          list := d.subs.list ++ [(⟨s, (d.subs.alloc s.rules.items).1⟩ : Sub)] } } := by
      refine (h.log [a.subscriptions.store]).withSubs ?_
      rw [CArray.items_push, List.map_append, hlist]
      rfl
    cases hr : Daemon.rebuild { d with subs :=
        { (d.subs.alloc s.rules.items).2 with
          list := d.subs.list ++ [(⟨s, (d.subs.alloc s.rules.items).1⟩ : Sub)] } } with
    | mk c e =>
      have hsubs := hc.subs_rebuild hr
      obtain ⟨st, hst, hcc, hshow⟩ := hpush.rebuild (hc.withSubs _) hr
      refine ⟨refused e, none, ?_⟩
      rw [hst]
      cases e with
      | none => exact ⟨hshow.published, rfl⟩
      | some e =>
        refine ⟨Shows.rollback (hshow.withSubs ?_) (hcc.withSubs _), rfl⟩
        rw [hsubs]
        show (a.subscriptions.items ++ [s]).eraseIdx a.subscriptions.items.length =
          ((d.subs.list ++ [_]).eraseIdx d.subs.list.length).map Sub.config
        rw [List.eraseIdx_append_of_length_le (Nat.le_refl _),
          List.eraseIdx_append_of_length_le (Nat.le_refl _), List.map_append, hlist]
        simp

theorem Shows.replaceSubscriptions (h : Shows a d) (hc : d.Coherent) (subs : List Subscription) :
    ∃ f f', Agree (a.replaceSubscriptions subs f f') (d.replaceSubscriptions subs) := by
  unfold App.replaceSubscriptions Daemon.replaceSubscriptions
  dsimp only
  have hnew : Shows { a with subscriptions := .exact subs }
      { d with subs := { (d.subs.adopt subs).2 with list := (d.subs.adopt subs).1 } } :=
    h.withSubs (Daemon.config_adopt d.subs subs).symm
  cases hr : Daemon.rebuild
      { d with subs := { (d.subs.adopt subs).2 with list := (d.subs.adopt subs).1 } } with
  | mk c e =>
    obtain ⟨st, hst, hcc, hshow⟩ := hnew.rebuild (hc.withSubs _) hr
    refine ⟨refused e, none, ?_⟩
    rw [hst]
    cases e with
    | none => exact ⟨hshow.done rfl, rfl⟩
    | some e => exact ⟨Shows.rollback (hshow.withSubs h.subscriptions) (hcc.withSubs _), rfl⟩

theorem Subs.find_cases (m : Subs) (id : Id) :
    (m.find id = none ∧ (m.list.map Sub.config).findIdx? (fun s => s.id = id) = none) ∨
      ∃ i s, m.find id = some (i, s) ∧ m.list[i]? = some s ∧
        (m.list.map Sub.config).findIdx? (fun s => s.id = id) = some i := by
  have hplace : (m.list.map Sub.config).findIdx? (fun s => decide (s.id = id)) = m.place id := by
    rw [List.findIdx?_map]
    rfl
  rw [hplace]
  cases hf : m.find id with
  | none => exact .inl ⟨rfl, Subs.place_of_find_none hf⟩
  | some q =>
    obtain ⟨i, s⟩ := q
    exact .inr ⟨i, s, rfl, (Subs.find_spec hf).1, Subs.place_of_find hf⟩

theorem find?_config (m : Subs) (id : Id) :
    ((m.list.map Sub.config).find? fun s => decide (s.id = id)) =
      (m.find id).map fun q => q.2.config := by
  rw [List.find?_eq_bind_findIdx?_getElem?]
  rcases m.find_cases id with ⟨hn, hi⟩ | ⟨j, s, hs, hj, hi⟩
  · rw [hn, hi]
    rfl
  · rw [hs, hi, Option.bind_some, List.getElem?_map, hj]
    rfl

theorem Shows.removeSubscriptionById (h : Shows a d) (hc : d.Coherent) (id : Id) :
    ∃ f f', Agree (a.removeSubscriptionById id f f') (d.removeSubscriptionById id) := by
  have hlist : a.subscriptions.items = d.subs.list.map Sub.config := h.subscriptions
  unfold App.removeSubscriptionById Daemon.removeSubscriptionById
  rcases d.subs.find_cases id with ⟨hf, hi⟩ | ⟨i, s, hf, hs, hi⟩
  · rw [hlist, hi, hf]
    exact ⟨none, none, h, rfl⟩
  · have hai : a.subscriptions.items[i]? = some s.config := by
      rw [hlist, List.getElem?_map, hs]
      rfl
    have herase : Shows { a with subscriptions := a.subscriptions.eraseIdx i }
        { d with subs := { d.subs with list := d.subs.list.eraseIdx i } } := by
      refine h.withSubs ?_
      show a.subscriptions.items.eraseIdx i = _
      rw [hlist, List.eraseIdx_map]
    rw [show a.subscriptions.items.findIdx? (fun s => decide (s.id = id)) = some i from hlist ▸ hi,
      hf]
    dsimp only
    cases hr : Daemon.rebuild
        { d with subs := { d.subs with list := d.subs.list.eraseIdx i } } with
    | mk c e =>
      obtain ⟨st, hst, hcc, hshow⟩ := herase.rebuild (hc.withSubs _) hr
      have hsubs := hc.subs_rebuild hr
      refine ⟨refused e, none, ?_⟩
      rw [hst]
      cases e with
      | none => exact ⟨hshow.done rfl, rfl⟩
      | some e =>
        dsimp only
        rw [hai]
        refine ⟨Shows.rollback ((hshow.log _).withSubs ?_) (hcc.withSubs _), rfl⟩
        rw [hsubs]
        show (a.subscriptions.items.eraseIdx i ++ [s.config]).dropLast.insertIdx i s.config =
          ((d.subs.list.eraseIdx i ++ [s]).dropLast.insertIdx i s).map Sub.config
        rw [List.dropLast_concat, List.dropLast_concat, List.map_insertIdx, hlist, List.eraseIdx_map]

/-- One subscription changed in place. -/
theorem Shows.setSub (h : Shows a d) {m : Subs} (hm : m.list = d.subs.list) {i : Nat} {s s' : Sub}
    (hs : d.subs.list[i]? = some s) {f : Subscription → Subscription}
    (hf : s'.config = f s.config) :
    Shows (a.modifySub i f) { d with subs := m.set i s' } := by
  have hlist : a.subscriptions.items = d.subs.list.map Sub.config := h.subscriptions
  refine h.withSubs ?_
  show a.subscriptions.items.modify i f = (m.list.set i s').map Sub.config
  rw [List.modify_eq_set_getElem?, hm, hlist, List.getElem?_map, hs, List.map_set, hf]
  rfl

theorem Shows.syncSubscriptionById (h : Shows a d) (hc : d.Coherent) (fetch : Fetch) (id : Id)
    (now : Nat) (url : Option Bytes) :
    ∃ f f', Agree (a.syncSubscriptionById fetch id now url f f')
      (d.syncSubscriptionById fetch id now url) := by
  have hlist : a.subscriptions.items = d.subs.list.map Sub.config := h.subscriptions
  unfold App.syncSubscriptionById Daemon.syncSubscriptionById
  rcases d.subs.find_cases id with ⟨hf, hi⟩ | ⟨i, s, hf, hs, hi⟩
  · rw [hlist, hi, hf]
    exact ⟨none, none, h, rfl⟩
  · have hai : a.subscriptions.items[i]? = some s.config := by
      rw [hlist, List.getElem?_map, hs]
      rfl
    rw [show a.subscriptions.items.findIdx? (fun s => decide (s.id = id)) = some i from hlist ▸ hi,
      hf]
    dsimp only
    rw [hai]
    dsimp only
    split_ifs
    · exact ⟨none, none, h, rfl⟩
    · cases fetch ((url.filter fun u => decide (u ≠ [])).getD s.config.url) s.config with
      | error e => exact ⟨none, none, h, rfl⟩
      | ok q =>
        obtain ⟨rules, changed⟩ := q
        cases changed with
        | false => exact ⟨none, none, h.setSub (by simp) hs rfl, rfl⟩
        | true =>
          dsimp only
          generalize (url.filter fun u => decide (u ≠ [])).getD s.config.url = u
          have hset : Shows (a.modifySub i fun s => { s with
              url := u, lastCheck := now % 2 ^ 32, lastUpdate := now % 2 ^ 32,
              rules := refreshedArray rules })
            { d with subs := (d.subs.alloc rules).2.set i ⟨{ s.config with
                url := u, lastCheck := now % 2 ^ 32, lastUpdate := now % 2 ^ 32,
                rules := refreshedArray rules }, (d.subs.alloc rules).1⟩ } :=
            h.setSub (by simp) hs rfl
          generalize ({ s.config with
            url := u, lastCheck := now % 2 ^ 32, lastUpdate := now % 2 ^ 32,
            rules := refreshedArray rules } : Subscription) = cfg at hset ⊢
          cases hr : Daemon.rebuild
              { d with subs := (d.subs.alloc rules).2.set i ⟨cfg, (d.subs.alloc rules).1⟩ } with
          | mk c e =>
            obtain ⟨st, hst, hcc, hshow⟩ := hset.rebuild (hc.withSubs _) hr
            have hsubs := hc.subs_rebuild hr
            refine ⟨refused e, none, ?_⟩
            rw [hst]
            cases e with
            | none => exact ⟨hshow.done rfl, rfl⟩
            | some e =>
              have hcs : c.subs.list[i]? = some ⟨cfg, (d.subs.alloc rules).1⟩ := by
                rw [hsubs]
                show ((d.subs.alloc rules).2.list.set i _)[i]? = _
                rw [Subs.list_alloc]
                exact List.getElem?_set_self (List.getElem?_eq_some_iff.mp hs).1
              exact ⟨Shows.rollback (hshow.setSub (by simp) hcs rfl) (hcc.withSubs _), rfl⟩

/-! ## All that is due -/

/-- A plan as `Api` has it. -/
def Plan.shown (p : Plan) : App.SubPlan := ⟨p.id, if p.changed then some p.refreshed else none⟩

/-- What a plan makes of the subscription it is for. -/
def Plan.upon (p : Plan) (now : Nat) (c : Subscription) : Subscription :=
  match p.shown.refreshed with
  | none => { c with lastCheck := now % 2 ^ 32 }
  | some rules => { c with
    lastCheck := now % 2 ^ 32, lastUpdate := now % 2 ^ 32, rules := refreshedArray rules }

theorem Plan.config_carryOut (p : Plan) (now : Nat) (s : Sub) :
    (Subs.carryOut now p s).config = p.upon now s.config := by
  unfold Subs.carryOut Plan.upon Plan.shown
  cases p.changed <;> rfl

/-- The plan for one of the due ids. -/
def planFor (fetch : Fetch) (subs : List Subscription) (id : Id) : Option App.SubPlan :=
  (subs.find? fun s => s.id = id).bind fun s =>
    if s.url = [] then none
    else (fetch s.url s).toOption.map fun r => ⟨id, if r.2 then some r.1 else none⟩

theorem duePlans_eq (fetch : Fetch) (a : App Unit) (now : Nat) :
    a.duePlans fetch now =
      ((a.subscriptions.items.filter fun s => subIsDue s now).map Subscription.id).filterMap
        (planFor fetch a.subscriptions.items) := by
  unfold App.duePlans
  congr 1
  funext id
  unfold planFor
  cases a.subscriptions.items.find? fun s => decide (s.id = id) with
  | none => rfl
  | some s =>
    by_cases hu : s.url = []
    · simp [hu]
    · cases hf : fetch s.url s with
      | error e => simp [hu, hf, Except.toOption]
      | ok r => simp [hu, hf, Except.toOption]

theorem dueIds_shown (h : Shows a d) (now : Nat) :
    (a.subscriptions.items.filter fun s => subIsDue s now).map Subscription.id =
      d.subs.dueIds now := by
  rw [h.subscriptions, Daemon.configSubs, List.filter_map, List.map_map]
  rfl

theorem duePlans_shown {fetch : Nat → Fetch} (hf : ∀ i, fetch i = fetch 0) (ids : List Id)
    (m : Subs) (i : Nat) :
    (m.duePlans fetch i ids).1.map Plan.shown =
      ids.filterMap (planFor (fetch 0) (m.list.map Sub.config)) := by
  induction ids generalizing m i with
  | nil => rfl
  | cons id ids ih =>
    unfold Subs.duePlans
    rw [List.filterMap_cons, planFor, find?_config]
    cases m.find id with
    | none => exact ih m (i + 1)
    | some q =>
      obtain ⟨j, s⟩ := q
      dsimp only [Option.map_some, Option.bind_some]
      split_ifs with hu
      · exact ih m (i + 1)
      · rw [hf i]
        cases fetch 0 s.config.url s.config with
        | error e => exact ih m (i + 1)
        | ok r =>
          obtain ⟨rules, changed⟩ := r
          have hrest := ih (m.alloc rules).2 (i + 1)
          rw [Subs.list_alloc] at hrest
          dsimp only [Except.toOption, Option.map_some]
          rw [List.map_cons, hrest]
          rfl

/-- A record of `Api`: the place and the subscription that was there. -/
def Saved.shown (e : Saved) : Nat × Subscription := (e.index, e.old.config)

theorem Shows.applyPlans (h : Shows a d) (now : Nat) (ps : List Plan) :
    Shows (a.applyPlans now (ps.map Plan.shown)).1 { d with subs := (d.subs.applyPlans now ps).1 } ∧
      (a.applyPlans now (ps.map Plan.shown)).2 =
        (d.subs.applyPlans now ps).2.map Saved.shown := by
  induction ps generalizing a d with
  | nil => exact ⟨h, rfl⟩
  | cons p ps ih =>
    have hlist : a.subscriptions.items = d.subs.list.map Sub.config := h.subscriptions
    rw [List.map_cons]
    unfold App.applyPlans Subs.applyPlans
    rcases d.subs.find_cases p.id with ⟨hf, hi⟩ | ⟨i, s, hf, hs, hi⟩
    · have hnone : a.subscriptions.items.findIdx? (fun s => decide (s.id = p.shown.id)) = none :=
        hlist ▸ hi
      rw [hnone, hf]
      exact ih (d := { d with subs := d.subs.release p.array })
        ⟨h.groups, h.subscriptions, h.running⟩
    · have hsome : a.subscriptions.items.findIdx? (fun s => decide (s.id = p.shown.id)) = some i :=
        hlist ▸ hi
      have hai : a.subscriptions.items[i]? = some s.config := by
        rw [hlist, List.getElem?_map, hs]
        rfl
      rw [hsome, hf]
      dsimp only
      rw [hai]
      have hset := h.setSub (m := if p.changed then d.subs else d.subs.release p.array)
        (f := p.upon now) (by split_ifs <;> rfl) hs (p.config_carryOut now s)
      obtain ⟨hshow, hold⟩ := ih hset
      exact ⟨hshow, congrArg ((i, s.config) :: ·) hold⟩

/-- The rollback. -/
theorem Shows.undo (h : Shows a d) (es : List Saved) :
    Shows ((es.map Saved.shown).foldl (fun c o => c.modifySub o.1 fun _ => o.2) a)
      { d with subs := d.subs.undo es } := by
  induction es generalizing a d with
  | nil => exact h
  | cons e es ih =>
    have hset : Shows (a.modifySub e.index fun _ => e.old.config) { d with
        subs := Subs.set (if e.replaced then
          d.subs.release (d.subs.list[e.index]?.bind Sub.array) else d.subs) e.index e.old } := by
      refine h.withSubs ?_
      show a.subscriptions.items.modify e.index (fun _ => e.old.config) =
        (List.set _ e.index e.old).map Sub.config
      rw [modify_const, h.subscriptions, Daemon.configSubs, List.map_set]
      split_ifs <;> rfl
    exact ih hset

/-- A plan is carried out on a subscription that is there. -/
theorem replaced_applyPlans {m : Subs} (now : Nat) {ps : List Plan}
    (h : ∀ p ∈ ps, m.place p.id ≠ none) :
    (m.applyPlans now ps).2.any Saved.replaced =
      (ps.map Plan.shown).any fun p => p.refreshed.isSome := by
  induction ps generalizing m with
  | nil => rfl
  | cons p ps ih =>
    have hchanged : p.shown.refreshed.isSome = p.changed := by
      unfold Plan.shown
      cases p.changed <;> rfl
    unfold Subs.applyPlans
    cases hf : m.find p.id with
    | none => exact absurd (Subs.place_of_find_none hf) (h p List.mem_cons_self)
    | some q =>
      obtain ⟨i, s⟩ := q
      have hlist : ∀ m' : Subs, m'.list = m.list → ∀ p' ∈ ps,
          (m'.set i (Subs.carryOut now p s)).place p'.id ≠ none := by
        intro m' hm' p' hp'
        have hi : m'.list[i]? = some s := hm' ▸ (Subs.find_spec hf).1
        rw [Subs.place_set hi (Subs.id_carryOut p s), Subs.place, hm']
        exact h p' (List.mem_cons_of_mem _ hp')
      rw [List.map_cons]
      dsimp only
      rw [List.any_cons, List.any_cons, hchanged, ih (hlist _ (by split_ifs <;> rfl))]

theorem place_duePlans {fetch : Nat → Fetch} (ids : List Id) (m : Subs) (i : Nat) :
    ∀ p ∈ (m.duePlans fetch i ids).1, m.place p.id ≠ none := by
  induction ids generalizing m i with
  | nil => exact fun _ hp => absurd hp List.not_mem_nil
  | cons id ids ih =>
    unfold Subs.duePlans
    split
    · exact ih m (i + 1)
    · next q s hf =>
      split_ifs
      · exact ih m (i + 1)
      · split
        · exact ih m (i + 1)
        · next rules changed _ =>
          intro p hp
          rcases List.mem_cons.mp hp with rfl | hp
          · rw [Subs.place_of_find hf]
            exact Option.some_ne_none q
          · have hrest := ih (m.alloc rules).2 (i + 1) p hp
            rwa [Subs.place, Subs.list_alloc] at hrest

theorem Shows.syncDueSubscriptions (h : Shows a d) (hc : d.Coherent) {fetch : Nat → Fetch}
    (hf : ∀ i, fetch i = fetch 0) (now : Nat) :
    ∃ f f', Agree (a.syncDueSubscriptions (fetch 0) now f f')
      (d.syncDueSubscriptions fetch now) := by
  have hplans : a.duePlans (fetch 0) now =
      (d.subs.duePlans fetch 0 (d.subs.dueIds now)).1.map Plan.shown := by
    rw [duePlans_eq, dueIds_shown h, duePlans_shown hf, h.subscriptions]
    rfl
  have hplace : ∀ p ∈ (d.subs.duePlans fetch 0 (d.subs.dueIds now)).1, d.subs.place p.id ≠ none :=
    place_duePlans (d.subs.dueIds now) d.subs 0
  have hlist := d.subs.list_duePlans fetch (d.subs.dueIds now) 0
  unfold App.syncDueSubscriptions Daemon.syncDueSubscriptions
  rw [hplans]
  cases hdue : d.subs.duePlans fetch 0 (d.subs.dueIds now) with
  | mk ps m =>
    rw [hdue] at hplace hlist
    dsimp only at hplace hlist ⊢
    have hm : Shows a { d with subs := m } := by
      refine ⟨h.groups, h.subscriptions.trans ?_, h.running⟩
      rw [Daemon.configSubs, Daemon.configSubs, hlist]
    obtain ⟨hshow, hold⟩ := hm.applyPlans now ps
    have hany : (m.applyPlans now ps).2.any Saved.replaced =
        (ps.map Plan.shown).any fun p => p.refreshed.isSome := by
      refine replaced_applyPlans now fun p hp => ?_
      rw [Subs.place, hlist]
      exact hplace p hp
    rw [hany]
    cases happ : a.applyPlans now (ps.map Plan.shown) with
    | mk b old =>
      rw [happ] at hshow hold
      dsimp only at hshow hold ⊢
      split_ifs
      · cases hr : Daemon.rebuild { d with subs := (m.applyPlans now ps).1 } with
        | mk c e =>
          obtain ⟨st, hst, hcc, hshow'⟩ := hshow.rebuild (hc.withSubs _) hr
          refine ⟨refused e, none, ?_⟩
          rw [hst]
          cases e with
          | none => exact ⟨Shows.save (hshow'.done rfl), rfl⟩
          | some e =>
            dsimp only
            rw [hold]
            exact ⟨((hshow'.undo (m.applyPlans now ps).2).rollback (hcc.withSubs _)).save, rfl⟩
      · exact ⟨none, none, hshow, rfl⟩

/-! ## Requests for subscriptions -/

theorem Shows.handlePutSubscriptions (h : Shows a d) (hc : d.Coherent) (draw : SubDraw)
    (body : Option Json) (save : Bool) :
    ∃ f f', Agree (a.handlePutSubscriptions draw body save f f')
      (d.handlePutSubscriptions draw body) := by
  unfold App.handlePutSubscriptions Daemon.handlePutSubscriptions
  cases body with
  | none => exact ⟨none, none, h, rfl⟩
  | some json =>
    dsimp only
    cases json.getArray "subscriptions" with
    | none => exact ⟨none, none, h, rfl⟩
    | some reqs =>
      have hbuild : a.buildSubscriptions draw 0 reqs = d.view.buildSubscriptions draw 0 reqs :=
        buildSubscriptions_congr h.subscriptions draw reqs 0
      dsimp only
      rw [hbuild]
      cases d.view.buildSubscriptions draw 0 reqs with
      | mk built r =>
        cases r with
        | some msg => exact ⟨none, none, h.log _, rfl⟩
        | none =>
          obtain ⟨f, f', hrep⟩ := (h.log (built.flatMap builtSubStores)).replaceSubscriptions hc
            ((ensureUniqueSubscriptionIds draw.fresh built).map
              (ensureUniqueSubscriptionRuleIds draw.fresh))
          refine ⟨f, f', ?_⟩
          dsimp only
          generalize App.replaceSubscriptions _ _ f f' = p at hrep ⊢
          generalize d.replaceSubscriptions _ = q at hrep ⊢
          obtain ⟨b, r⟩ := p
          obtain ⟨c, r'⟩ := q
          obtain ⟨hbc, rfl⟩ := hrep
          cases r with
          | some e => exact ⟨hbc, rfl⟩
          | none => exact ⟨hbc.maybeSave save, rfl⟩

theorem Shows.handleCreateSubscription (h : Shows a d) (hc : d.Coherent) (draw : SubDraw)
    (body : Option Json) (save : Bool) :
    ∃ f f', Agree (a.handleCreateSubscription draw body save f f')
      (d.handleCreateSubscription draw body) := by
  unfold App.handleCreateSubscription Daemon.handleCreateSubscription
  cases body with
  | none => exact ⟨none, none, h, rfl⟩
  | some json =>
    dsimp only
    split_ifs
    · exact ⟨none, none, h, rfl⟩
    · cases subscriptionFromReq json none (draw.group 0) (draw.rule 0) with
      | error msg => exact ⟨none, none, h, rfl⟩
      | ok s =>
        obtain ⟨f, f', hadd⟩ := (h.log (builtSubStores s)).addSubscription hc
          (ensureUniqueSubscriptionRuleIds draw.fresh s)
        refine ⟨f, f', ?_⟩
        dsimp only
        generalize App.addSubscription _ _ f f' = p at hadd ⊢
        generalize d.addSubscription _ = q at hadd ⊢
        obtain ⟨b, r⟩ := p
        obtain ⟨c, r'⟩ := q
        obtain ⟨hbc, rfl⟩ := hadd
        cases r with
        | some e => cases e <;> exact ⟨hbc, rfl⟩
        | none => exact ⟨hbc.maybeSave save, rfl⟩

theorem Shows.handleDeleteSubscription (h : Shows a d) (hc : d.Coherent) (subscriptionID : Bytes)
    (save : Bool) :
    ∃ f f', Agree (a.handleDeleteSubscription subscriptionID save f f')
      (d.handleDeleteSubscription subscriptionID) := by
  unfold App.handleDeleteSubscription Daemon.handleDeleteSubscription
  cases Id.parse subscriptionID with
  | none => exact ⟨none, none, h, rfl⟩
  | some id =>
    obtain ⟨f, f', hrem⟩ := h.removeSubscriptionById hc id
    refine ⟨f, f', ?_⟩
    dsimp only
    generalize a.removeSubscriptionById id f f' = p at hrem ⊢
    generalize d.removeSubscriptionById id = q at hrem ⊢
    obtain ⟨b, found, r⟩ := p
    obtain ⟨c, r'⟩ := q
    obtain ⟨hbc, rfl⟩ := hrem
    cases r with
    | some e => exact ⟨hbc, rfl⟩
    | none =>
      cases found with
      | false => exact ⟨hbc, rfl⟩
      | true => exact ⟨hbc.maybeSave save, rfl⟩

theorem Shows.handleSyncSubscription (h : Shows a d) (hc : d.Coherent) (fetch : Fetch)
    (subscriptionID : Bytes) (body : Option (Option Json)) (now : Nat) (save : Bool) :
    ∃ f f', Agree (a.handleSyncSubscription fetch subscriptionID body now save f f')
      (d.handleSyncSubscription fetch subscriptionID body now) := by
  unfold App.handleSyncSubscription Daemon.handleSyncSubscription
  cases Id.parse subscriptionID with
  | none => exact ⟨none, none, h, rfl⟩
  | some id =>
    rcases body with _ | _ | j
    case some.some.none => exact ⟨none, none, h, rfl⟩
    case' some.none => obtain ⟨f, f', hsync⟩ := h.syncSubscriptionById hc fetch id now none
    case' some.some.some =>
      obtain ⟨f, f', hsync⟩ := h.syncSubscriptionById hc fetch id now (some (j.getString "url"))
    all_goals
      refine ⟨f, f', ?_⟩
      simp only [Option.join_some, Option.join_none, Option.map_some, Option.map_none]
      generalize App.syncSubscriptionById fetch a id now _ f f' = p at hsync ⊢
      generalize Daemon.syncSubscriptionById fetch d id now _ = q at hsync ⊢
      obtain ⟨b, r⟩ := p
      obtain ⟨c, r'⟩ := q
      obtain ⟨hbc, rfl⟩ := hsync
      cases r with
      | error e => cases e <;> exact ⟨hbc, rfl⟩
      | ok changed =>
        have hlist : b.subscriptions.items = c.subs.list.map Sub.config := hbc.subscriptions
        refine ⟨hbc.maybeSave _, ?_⟩
        dsimp only
        rw [hlist, find?_config]
        cases c.subs.find id <;> rfl

/-! ## Matches, reload and start -/

theorem RulesetObj.live_add (rs : RulesetObj) (g : Group) (e : Entry) (nf : Nf) :
    (rs.add g e nf).1.live g = rs.live g := by
  unfold RulesetObj.add
  split_ifs
  · rfl
  · rfl
  · cases hs : rs.ipset with
    | none => rfl
    | some s => simp [RulesetObj.live, hs]

/-- A match is not shown. -/
theorem Shows.onMatch (h : Shows a d) (act : Pipeline.Action) : Shows a (d.onMatch act) := by
  unfold Daemon.onMatch
  cases d.findRuleset act.groupId with
  | none => exact h
  | some src =>
    cases src with
    | synth j =>
      show Shows a (d.addTo _ (.synth j))
      cases hj : d.synth.rulesets[j]? with
      | none => rwa [Daemon.addTo_synth_none hj]
      | some rs =>
        rw [Daemon.addTo_synth hj]
        exact ⟨h.groups, h.subscriptions, h.running⟩
    | user i =>
      show Shows a (d.addTo _ (.user i))
      cases hi : d.user.rulesets[i]? with
      | none => rwa [Daemon.addTo_user_none hi]
      | some rs =>
        rw [Daemon.addTo_user hi]
        refine ⟨h.groups.trans ?_, h.subscriptions, h.running⟩
        show d.user.rulesets.map d.live = (d.user.rulesets.set i _).map d.live
        obtain ⟨hlt, hget⟩ := List.getElem?_eq_some_iff.mp hi
        rw [List.map_set, Daemon.live, RulesetObj.group_add, RulesetObj.live_add]
        show _ = (d.user.rulesets.map d.live).set i (d.live rs)
        rw [← hget, ← List.map_set, List.set_getElem_self]

theorem Shows.reloadConfig (h : Shows a d) (hc : d.Coherent) (doc : Option Doc) :
    ∃ K f f', Shows (a.reloadConfig K doc f f') (d.reloadConfig doc) := by
  unfold App.reloadConfig Daemon.reloadConfig
  cases doc with
  | none => exact ⟨.willing, none, none, h⟩
  | some doc =>
    dsimp only
    cases loadBuffer initDefaults doc with
    | mk st r =>
      cases r with
      | error e => exact ⟨.willing, none, none, h.log st⟩
      | ok cfg =>
        obtain ⟨K, -, hK⟩ := (h.log st).clearGroups.addGroups hc.onGroups_clearGroups.coherent
          cfg.groups.items
        have hcc := hc.onGroups_clearGroups.coherent.onGroups_addGroups cfg.groups.items
        dsimp only
        have hgroups : Shows
            (if cfg.groupsPresent then ((a.log st).clearGroups.addGroups K cfg.groups.items).1
              else a.log st)
            (if cfg.groupsPresent then (d.clearGroups.addGroups cfg.groups.items).1 else d) := by
          split_ifs
          · exact hK.shows
          · exact h.log st
        have hgc : (if cfg.groupsPresent then (d.clearGroups.addGroups cfg.groups.items).1
            else d).Coherent := by
          split_ifs
          · exact hcc.coherent
          · exact hc
        obtain ⟨f, f', hrep⟩ := hgroups.replaceSubscriptions hgc cfg.subscriptions.items
        refine ⟨K, f, f', ?_⟩
        by_cases hs : cfg.subscriptionsPresent = true
        · rw [if_pos hs, if_pos hs]
          exact hrep.shows
        · rw [if_neg hs, if_neg hs]
          exact hgroups

/-- The arrays `mt_app_create` fills. -/
theorem Shows.createRulesets (h : Shows a d) (hc : d.Coherent) (gs : List Group) :
    (d.createRulesets gs).user.rulesets.map (d.createRulesets gs).live =
      a.groups.items ++ gs.map Live.new ∧ (d.createRulesets gs).running = d.running := by
  induction gs generalizing a d with
  | nil => exact ⟨h.groups.symm.trans (List.append_nil _).symm, rfl⟩
  | cons g gs ih =>
    have hshow : Shows a { d with heap := d.heap.alloc g } :=
      h.kept hc rfl (fun _ hp =>
        Heap.cell_alloc_of_ne fun he => hc.next_notMem_user (he ▸ hp)) rfl rfl
    have hfresh := hc.fresh_alloc g
    have hpush := hshow.push d.heap.next (.new d.heap.next) d.nf
    have hpc : Daemon.Coherent { d with
        heap := d.heap.alloc g, user := d.user.push d.heap.next (.new d.heap.next) } :=
      (hc.alloc g).pushUser hfresh.alive hfresh.user hfresh.synth rfl
        (RulesetObj.idle_new _).held rfl
    have hlive : Daemon.live { d with heap := d.heap.alloc g } (.new d.heap.next) = Live.new g := by
      show RulesetObj.live ((d.heap.alloc g).get d.heap.next) _ = _
      rw [Heap.get_of_cell Heap.cell_alloc_next]
      rfl
    obtain ⟨hg, hr⟩ := ih hpush hpc
    refine ⟨hg.trans ?_, hr⟩
    rw [hlive, List.map_cons]
    show (a.groups.items ++ [Live.new g]) ++ _ = _
    rw [List.append_assoc, List.singleton_append]

theorem create_shows (k : Deps) (cfg : Config) (answers : List (Option Err)) (st : List Store) :
    Shows (App.create cfg st) (Daemon.create k cfg answers) := by
  let m := Subs.adopt ⟨[], 0, []⟩ cfg.subscriptions.items
  let d : Daemon :=
    ⟨k, ⟨fun _ => none, 0⟩, .empty, { m.2 with list := m.1 }, .empty, false,
      rulesetSnapshotBuild cfg.groups.items cfg.subscriptions.items, ⟨answers, []⟩⟩
  have hd : d.Coherent :=
    ⟨Registry.coherent_empty, Registry.coherent_empty, List.nodup_nil, (fun _ hp => nomatch hp), rfl⟩
  let a : App Unit := ⟨.empty, cfg.subscriptions, false, none, st⟩
  have hshow : Shows a d := ⟨rfl, (Daemon.config_adopt _ _).symm, rfl⟩
  obtain ⟨hc, -, hsubs, -⟩ := hd.createRulesets cfg.groups.items
  obtain ⟨hg, hr⟩ := hshow.createRulesets hd cfg.groups.items
  have hall : Shows { a with groups := ⟨cfg.groups.items.map Live.new, cfg.groups.alloc⟩ }
      (d.createRulesets cfg.groups.items) := by
    refine ⟨hg.symm, ?_, hr.symm⟩
    rw [Daemon.configSubs, hsubs]
    exact hshow.subscriptions
  exact hall.rollback hc

/-- All rulesets started without an error are up as with a kernel that never refuses. -/
theorem live_startAll {k : Deps} {h : Heap} {rss user : List RulesetObj} {nf nf' : Nf}
    (hidle : ∀ rs ∈ rss, rs.Idle) (hs : startAll k h rss nf = (user, none, nf')) :
    user.map (fun rs => rs.live (h.get rs.group)) =
      rss.map fun rs => ((rs.live (h.get rs.group)).start .willing).1 := by
  induction rss generalizing user nf with
  | nil =>
    cases hs
    rfl
  | cons rs rss ih =>
    obtain ⟨e, e', hnone, hstart⟩ :=
      (hidle rs List.mem_cons_self).live_start k (h.get rs.group) nf
    have hgroup : (rs.start k (h.get rs.group) nf).1.group = rs.group := RulesetObj.group_start
    unfold startAll at hs
    split at hs
    · cases hs
    · next rs' nf'' hr =>
      rw [hr] at hnone hstart hgroup
      obtain ⟨rfl, rfl⟩ := hnone rfl
      cases hrest : startAll k h rss nf'' with
      | mk user' r =>
        rw [hrest] at hs
        cases hs
        rw [List.map_cons, List.map_cons,
          ih (fun q hq => hidle q (List.mem_cons_of_mem _ hq)) hrest, hstart .willing ⟨rfl, rfl⟩]
        dsimp only at hgroup ⊢
        rw [hgroup]

theorem launch_shows {k : Deps} {cfg : Config} {answers : List (Option Err)}
    (h : Daemon.launch k cfg answers = .ok d) (st : List Store) :
    Shows ((App.create cfg st).setRunning .willing) d := by
  have hshow := create_shows k cfg answers st
  obtain ⟨hc, -, -, hk⟩ := Daemon.create_spec k cfg answers
  have hnew : ∀ l ∈ (App.create cfg st : App Unit).groups.items, l.enabled = false := by
    intro l hl
    obtain ⟨g, -, rfl⟩ := List.mem_map.mp hl
    rfl
  unfold Daemon.launch at h
  generalize Daemon.create k cfg answers = c at hshow hc hk h
  subst hk
  have hidle : ∀ rs ∈ c.user.rulesets, rs.Idle := by
    intro rs hrs
    refine (hc.user.held rs hrs).idle (hnew (c.live rs) ?_)
    rw [hshow.groups]
    exact List.mem_map_of_mem hrs
  dsimp only at h
  split at h
  · cases h
  · next user nf hu =>
    split at h
    · cases h
    · next synth nf' hs =>
      cases h
      refine ⟨?_, hshow.subscriptions, rfl⟩
      show (App.create cfg st).groups.items.map (fun l => (l.start .willing).1) =
        user.map fun rs => rs.live (c.heap.get rs.group)
      rw [live_startAll hidle hu, hshow.groups, List.map_map]
      rfl

/-! ## Steps and runs -/

/-- What `Api` takes from outside: the answers of the kernel, and how the rebuild and the one of a
rollback end. -/
structure Told where
  kernel : Kernel Unit
  fail : Option (Nat × Err)
  fail' : Option (Nat × Err)

/-- The operation of `Api` for one of the daemon. A match changes nothing there. -/
def Op.shown (t : Told) : Op → Option (Api.Op Unit)
  | .request draw req => some (.request t.kernel draw req)
  | .putSubscriptions draw body => some (.putSubscriptions draw body false t.fail t.fail')
  | .createSubscription draw body => some (.createSubscription draw body false t.fail t.fail')
  | .deleteSubscription id => some (.deleteSubscription id false t.fail t.fail')
  | .syncSubscription fetch id body now =>
    some (.syncSubscription fetch id body now false t.fail t.fail')
  | .syncDue fetch now => some (.syncDue (fetch 0) now t.fail t.fail')
  | .reload doc => some (.reload t.kernel doc t.fail t.fail')
  | .onMatch _ => none

/-- A subscription that is due twice is downloaded twice with the same outcome. `Api` has one
outcome for each subscription. -/
def Op.Steady : Op → Prop
  | .syncDue fetch _ => ∀ i, fetch i = fetch 0
  | _ => True

theorem Shows.step (h : Shows a d) (hc : d.Coherent) {op : Op} (hop : op.Steady) :
    ∃ t, Shows ((op.shown t).elim a a.step) (d.step op) := by
  cases op with
  | request draw req =>
    obtain ⟨K, hK⟩ := h.handle hc draw req
    exact ⟨⟨K, none, none⟩, hK.shows⟩
  | putSubscriptions draw body =>
    obtain ⟨f, f', hf⟩ := h.handlePutSubscriptions hc draw body false
    exact ⟨⟨.willing, f, f'⟩, hf.shows⟩
  | createSubscription draw body =>
    obtain ⟨f, f', hf⟩ := h.handleCreateSubscription hc draw body false
    exact ⟨⟨.willing, f, f'⟩, hf.shows⟩
  | deleteSubscription id =>
    obtain ⟨f, f', hf⟩ := h.handleDeleteSubscription hc id false
    exact ⟨⟨.willing, f, f'⟩, hf.shows⟩
  | syncSubscription fetch id body now =>
    obtain ⟨f, f', hf⟩ := h.handleSyncSubscription hc fetch id body now false
    exact ⟨⟨.willing, f, f'⟩, hf.shows⟩
  | syncDue fetch now =>
    obtain ⟨f, f', hf⟩ := h.syncDueSubscriptions hc hop now
    exact ⟨⟨.willing, f, f'⟩, hf.shows⟩
  | reload doc =>
    obtain ⟨K, f, f', hf⟩ := h.reloadConfig hc doc
    exact ⟨⟨K, f, f'⟩, hf⟩
  | onMatch act => exact ⟨⟨.willing, none, none⟩, h.onMatch act⟩

/-- The operations of `Api` for those of the daemon, each told what it needs. -/
def shownOps (ts : List Told) (ops : List Op) : List (Api.Op Unit) :=
  (List.zipWith Op.shown ts ops).filterMap id

theorem Shows.run (h : Shows a d) (hc : d.Coherent) {ops : List Op} (hops : ∀ op ∈ ops, op.Steady) :
    ∃ ts, ts.length = ops.length ∧ Shows ((shownOps ts ops).foldl App.step a) (d.run ops) := by
  induction ops generalizing a d with
  | nil => exact ⟨[], rfl, h⟩
  | cons op ops ih =>
    obtain ⟨t, ht⟩ := h.step hc (hops op List.mem_cons_self)
    obtain ⟨ts, hlen, hts⟩ := ih ht (hc.step op).1 fun o ho => hops o (List.mem_cons_of_mem _ ho)
    refine ⟨t :: ts, congrArg (· + 1) hlen, ?_⟩
    have hcons : (shownOps (t :: ts) (op :: ops)).foldl App.step a =
        (shownOps ts ops).foldl App.step ((op.shown t).elim a a.step) := by
      unfold shownOps
      rw [List.zipWith_cons_cons]
      cases op.shown t with
      | none => rfl
      | some o => rfl
    rw [hcons]
    exact hts

/-- Every run of a daemon is shown by a run of `Api`: the same requests and syncs, with the answers
of the kernel that the daemon had. -/
theorem run_shows {k : Deps} {cfg : Config} {answers : List (Option Err)}
    (h : Daemon.launch k cfg answers = .ok d) (st : List Store) {ops : List Op}
    (hops : ∀ op ∈ ops, op.Steady) :
    ∃ ts, ts.length = ops.length ∧
      Shows ((shownOps ts ops).foldl App.step ((App.create cfg st).setRunning .willing))
        (d.run ops) :=
  (launch_shows h st).run (Daemon.launch_spec h).1 hops

/-- What `Api` shows of its runs holds of the daemon's: from a configuration that was loaded, the
colours of the groups are normal in every state. -/
theorem run_normalColor {k : Deps} {doc : Doc} {cfg : Config} {st : List Store}
    (hload : loadBuffer initDefaults doc = (st, .ok cfg)) {answers : List (Option Err)}
    (h : Daemon.launch k cfg answers = .ok d) {ops : List Op} (hops : ∀ op ∈ ops, op.Steady) :
    ∀ g ∈ (d.run ops).configGroups, NormalColor g := by
  obtain ⟨ts, -, hshow⟩ := run_shows h st hops
  obtain ⟨hc, ha, -⟩ := Daemon.launch_spec h
  have hrun : Api.daemon (some doc) (.setRunning .willing :: shownOps ts ops) =
      some ((shownOps ts ops).foldl App.step ((App.create cfg st).setRunning .willing)) := by
    unfold Api.daemon
    rw [Option.elim_some, hload]
    rfl
  rw [← hshow.configGroups (hc.run ha ops).1]
  exact daemon_coloured hrun

end MagiTrickle.Runtime
