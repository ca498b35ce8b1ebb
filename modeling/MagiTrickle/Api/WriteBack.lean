import Mathlib.Data.List.Nodup
import MagiTrickle.Api.Colours

/-!
# Writing back what was read

The document of a group, read as an entry of `PUT /groups` next to the group
itself, gives a copy of the group; the same for subscriptions. Subscriptions are
exchanged as a whole. Groups are removed and then added one by one, and a group
that the kernel turns down on its way back is gone, with all that follow
(`addGroups_spec`).
-/

namespace MagiTrickle

namespace Config

/-- A group with its rules in the block that appending them one by one gives. -/
def Group.rebuilt (g : Group) : Group := { g with rules := CArray.empty.pushAll g.rules.items }

/-- A group apart from the block of its rules. -/
def Group.contents (g : Group) : Group := { g with rules := ⟨g.rules.items, none⟩ }

def Subscription.rebuilt (s : Subscription) : Subscription :=
  { s with rules := CArray.empty.pushAll s.rules.items }

/-- A subscription apart from the block of its rules. -/
def Subscription.contents (s : Subscription) : Subscription :=
  { s with rules := ⟨s.rules.items, none⟩ }

theorem contents_rebuilt (g : Group) : g.rebuilt.contents = g.contents := by
  unfold Group.contents Group.rebuilt
  rw [CArray.items_pushAll]
  rfl

theorem contents_rebuilt_subscription (s : Subscription) : s.rebuilt.contents = s.contents := by
  unfold Subscription.contents Subscription.rebuilt
  rw [CArray.items_pushAll]
  rfl

end Config

namespace Api

open MagiTrickle.Config

variable {κ : Type}

/-! ## Documents read back -/

theorem ruleFromReq_toJson {r : Rule} {baseline : List Rule} (hr : r ∈ baseline) (draw : Id) :
    ruleFromReq (ruleToJson r) baseline draw = r := by
  have hid : (ruleToJson r).parseOptionalId "id" = some (some r.id) := by
    show (Id.parse r.id.format).map some = _
    rw [Id.parse_format]
    rfl
  have hany : baseline.any (fun r' => r'.id = r.id) = true :=
    List.any_eq_true.mpr ⟨r, hr, decide_eq_true rfl⟩
  unfold ruleFromReq reusedId
  rw [hid]
  dsimp only
  rw [hany]
  rfl

theorem rulesFromReq_toJson (baseline : List Rule) (draw : Nat → Id) :
    rulesFromReq baseline draw (baseline.map ruleToJson) = baseline := by
  unfold rulesFromReq
  refine List.ext_getElem (by simp) fun j hj hj' => ?_
  rw [List.getElem_mapIdx, List.getElem_map]
  exact ruleFromReq_toJson (List.getElem_mem hj') (draw j)

/-- The document of a group with a normal colour, read next to the group. -/
theorem groupFromReq_toJson {g : Group} (hcolor : normalizeColor g.color = g.color)
    (drawGroup : Id) (drawRule : Nat → Id) :
    groupFromReq (groupToJson g true) (some g) drawGroup drawRule = .ok g.rebuilt := by
  have hid : (groupToJson g true).parseOptionalId "id" = some (some g.id) := by
    show (Id.parse g.id.format).map some = _
    rw [Id.parse_format]
    rfl
  have hrules : groupRulesFromReq (groupToJson g true) (some g) drawRule = .ok g.rules.items := by
    show Except.ok (rulesFromReq g.rules.items drawRule (g.rules.items.map ruleToJson)) = _
    rw [rulesFromReq_toJson]
  have hcol : (groupToJson g true).getString "color" = g.color := rfl
  unfold groupFromReq
  rw [hid]
  dsimp only
  rw [if_neg (by simp), hrules]
  dsimp only
  rw [hcol, hcolor]
  rfl

theorem find?_of_nodup {α : Type} {idOf : α → Id} {l : List α} (hn : (l.map idOf).Nodup) {x : α}
    (hx : x ∈ l) : l.find? (fun y => idOf y = idOf x) = some x := by
  cases hfind : l.find? (fun y => idOf y = idOf x) with
  | none => exact absurd (decide_eq_true rfl) (List.find?_eq_none.mp hfind x hx)
  | some y =>
    have hid : idOf y = idOf x := by simpa using List.find?_some hfind
    rw [List.inj_on_of_nodup_map hn (List.mem_of_find?_eq_some hfind) hx hid]

theorem existingGroup_toJson {a : App κ} (hn : (a.configGroups.map Group.id).Nodup) {g : Group}
    (hg : g ∈ a.configGroups) (withRules : Bool) :
    a.existingGroup (groupToJson g withRules) = some g := by
  have hid : (groupToJson g withRules).parseOptionalId "id" = some (some g.id) := by
    show (Id.parse g.id.format).map some = _
    rw [Id.parse_format]
    rfl
  unfold App.existingGroup
  rw [hid]
  show (a.groups.items.find? fun l => l.group.id = g.id).map Live.group = some g
  have hmap : (a.groups.items.find? fun l => l.group.id = g.id).map Live.group =
      a.configGroups.find? fun g' => g'.id = g.id := by
    rw [App.configGroups, List.find?_map]
    rfl
  rw [hmap, find?_of_nodup hn hg]

theorem buildGroups_toJson {a : App κ} (hn : (a.configGroups.map Group.id).Nodup) (draw : Draw)
    {gs : List Group} (hgs : ∀ g ∈ gs, g ∈ a.configGroups)
    (hcolor : ∀ g ∈ gs, normalizeColor g.color = g.color) (i : Nat) :
    a.buildGroups draw i (gs.map fun g => groupToJson g true) = (gs.map Group.rebuilt, none) := by
  induction gs generalizing i with
  | nil => rfl
  | cons g gs ih =>
    rw [List.map_cons, App.buildGroups, existingGroup_toJson hn (hgs g List.mem_cons_self),
      groupFromReq_toJson (hcolor g List.mem_cons_self)]
    dsimp only
    rw [ih (fun g' hg' => hgs g' (List.mem_cons_of_mem _ hg'))
      (fun g' hg' => hcolor g' (List.mem_cons_of_mem _ hg'))]
    rfl

/-! ## Groups added one by one -/

/-- The kernel takes the group: it is not enabled, or its objects are made and filled. -/
def Kernel.Accepts (k : Kernel κ) (g : Group) : Prop :=
  g.enable → ∃ o, k.enable g = .ok o ∧ (k.sync g o).2 = none

theorem start_new_iff (k : Kernel κ) (g : Group) :
    ((Live.new g).start k).2 = none ↔ k.Accepts g := by
  unfold Kernel.Accepts Live.start Live.enable Live.new
  cases hen : g.enable with
  | false => simp [Live.sync, hen]
  | true =>
    cases hk : k.enable g with
    | error e => simp
    | ok o => simp [Live.sync, hen]

/-- The groups are all added if the kernel takes each of them, or is not asked; otherwise some are
missing. -/
theorem addGroups_spec (k : Kernel κ) {gs : List Group} {a : App κ}
    (hu : UniqueIds (a.configGroups ++ gs)) :
    ((a.running → ∀ g ∈ gs, k.Accepts g) →
        (a.addGroups k gs).1.configGroups = a.configGroups ++ gs) ∧
      (¬ (a.running → ∀ g ∈ gs, k.Accepts g) →
        (a.addGroups k gs).1.configGroups.length < (a.configGroups ++ gs).length) := by
  induction gs generalizing a with
  | nil =>
    refine ⟨fun _ => (List.append_nil _).symm, fun h => ?_⟩
    exact absurd (fun _ g hg => absurd hg List.not_mem_nil) h
  | cons g gs ih =>
    have hsub : (a.configGroups ++ [g]).Sublist (a.configGroups ++ g :: gs) :=
      (List.Sublist.refl _).append (List.singleton_sublist.mpr List.mem_cons_self)
    have hnc := (uniqueIds_append_singleton.mp (hu.sublist hsub)).2
    rw [App.addGroups]
    rcases App.addGroup_cases (a := a) (k := k) g with ⟨hc, -⟩ |
      ⟨-, ⟨b, hadd, hrun, hitems, hstart⟩ | ⟨b, e, hadd, hitems, hrun, hstart⟩⟩
    · rw [hnc] at hc
      cases hc
    · have hcfg : b.configGroups = a.configGroups ++ [g] := by
        rw [App.configGroups, hitems, List.map_append, List.map_singleton, App.group_bringUp]
        rfl
      have happ : b.configGroups ++ gs = a.configGroups ++ g :: gs := by
        rw [hcfg, List.append_assoc, List.singleton_append]
      have hcond : (b.running → ∀ g' ∈ gs, k.Accepts g') ↔
          (a.running → ∀ g' ∈ g :: gs, k.Accepts g') := by
        rw [hrun]
        refine imp_congr_right fun hr => ?_
        rw [List.forall_mem_cons]
        exact (and_iff_right ((start_new_iff k g).mp (hstart hr))).symm
      have hrest := ih (a := b) (by rwa [happ])
      rw [hcond, happ] at hrest
      rw [hadd]
      exact hrest
    · have hcfg : b.configGroups = a.configGroups := by
        rw [App.configGroups, hitems]
        rfl
      rw [hadd]
      refine ⟨fun h => ?_, fun _ => ?_⟩
      · exact absurd ((start_new_iff k g).mpr (h hrun g List.mem_cons_self)) hstart
      · show b.configGroups.length < _
        rw [hcfg, List.length_append, List.length_cons]
        omega

theorem configGroups_maybeSave (a : App κ) (save : Bool) :
    (a.maybeSave save).configGroups = a.configGroups := by
  unfold App.maybeSave
  split <;> rfl

/-- `GET /groups?with_rules=true`, then `PUT /groups` with that body. -/
theorem putGroups_readBack_iff {a : App κ} (hu : UniqueIds a.configGroups)
    (hcolor : ∀ g ∈ a.configGroups, normalizeColor g.color = g.color) (k : Kernel κ) (draw : Draw)
    (save : Bool) :
    (a.handlePutGroups k draw (a.handleGetGroups true).body save).1.configGroups.map
        Group.contents = a.configGroups.map Group.contents ↔
      (a.running → ∀ g ∈ a.configGroups, k.Accepts g.rebuilt) := by
  let c := ((a.disableAll k).log ((a.configGroups.map Group.rebuilt).flatMap builtStores)).clearGroups
  have hput : (a.handlePutGroups k draw (a.handleGetGroups true).body save).1.configGroups =
      (c.addGroups k (a.configGroups.map Group.rebuilt)).1.configGroups := by
    have harr : (Json.obj [(str "groups",
        .arr (a.configGroups.map fun g => groupToJson g true))]).getArray "groups" =
        some (a.configGroups.map fun g => groupToJson g true) := rfl
    show (a.handlePutGroups k draw (some (.obj _)) save).1.configGroups = _
    rw [App.handlePutGroups]
    dsimp only
    rw [harr]
    dsimp only
    rw [App.buildGroups_disableAll, buildGroups_toJson hu.1 draw (fun g hg => hg) hcolor]
    dsimp only
    split
    · next b e hadd => rw [hadd]
    · next b hadd => rw [configGroups_maybeSave, hadd]
  have hids : (a.configGroups.map Group.rebuilt).map Group.id = a.configGroups.map Group.id := by
    rw [List.map_map]
    rfl
  have hempty : c.configGroups = [] := rfl
  have hunique : UniqueIds (c.configGroups ++ a.configGroups.map Group.rebuilt) := by
    rw [hempty, List.nil_append]
    refine ⟨by rw [hids]; exact hu.1, fun g hg => ?_⟩
    obtain ⟨g₀, hg₀, rfl⟩ := List.mem_map.mp hg
    show ((CArray.empty.pushAll g₀.rules.items).items.map Rule.id).Nodup
    rw [CArray.items_pushAll]
    exact hu.2 g₀ hg₀
  have hcond : (c.running → ∀ g ∈ a.configGroups.map Group.rebuilt, k.Accepts g) ↔
      (a.running → ∀ g ∈ a.configGroups, k.Accepts g.rebuilt) := by
    rw [List.forall_mem_map]
    rfl
  obtain ⟨hall, hmiss⟩ := addGroups_spec k hunique
  rw [hcond, hempty, List.nil_append] at hall hmiss
  rw [hput]
  refine ⟨fun heq => ?_, fun h => ?_⟩
  · by_contra h
    have hlt := hmiss h
    have hlen := congrArg List.length heq
    rw [List.length_map, List.length_map] at hlen
    rw [List.length_map] at hlt
    omega
  · rw [hall h, List.map_map]
    exact List.map_congr_left fun g _ => contents_rebuilt g

/-! ## Subscriptions exchanged as a whole -/

theorem subRuleFromReq_toJson {r : SubRule} {baseline : List SubRule} (hr : r ∈ baseline)
    (draw : Id) : subRuleFromReq (subRuleToJson r) baseline draw = r := by
  have hid : (subRuleToJson r).parseOptionalId "id" = some (some r.id) := by
    show (Id.parse r.id.format).map some = _
    rw [Id.parse_format]
    rfl
  have hany : baseline.any (fun r' => r'.id = r.id) = true :=
    List.any_eq_true.mpr ⟨r, hr, decide_eq_true rfl⟩
  unfold subRuleFromReq
  rw [hid]
  dsimp only
  rw [if_pos hany]
  rfl

/-- `interval` and `lastUpdate` are of type `uint32_t`. -/
def SubscriptionInRange (s : Subscription) : Prop := s.interval < 2 ^ 32 ∧ s.lastUpdate < 2 ^ 32

theorem getUint32_of_lt {j : Json} {key : String} {n : Nat} (h : j.getItem key = some (.num n))
    (hn : n < 2 ^ 32) : j.getUint32 key = some n := by
  unfold Json.getUint32
  rw [h]
  dsimp only
  rw [Option.some.injEq]
  omega

/-- The document of a subscription, read next to the subscription. -/
theorem subscriptionFromReq_toJson {s : Subscription} (hs : SubscriptionInRange s) (drawSub : Id)
    (drawRule : Nat → Id) :
    subscriptionFromReq (subscriptionToJson s) (some s) drawSub drawRule = .ok s.rebuilt := by
  have hid : (subscriptionToJson s).parseOptionalId "id" = some (some s.id) := by
    show (Id.parse s.id.format).map some = _
    rw [Id.parse_format]
    rfl
  have hrules : subRulesFromReq (subscriptionToJson s) (some s) drawRule = .ok s.rules.items := by
    show Except.ok ((s.rules.items.map subRuleToJson).mapIdx fun j req =>
      subRuleFromReq req s.rules.items (drawRule j)) = _
    refine congrArg Except.ok (List.ext_getElem (by simp) fun j hj hj' => ?_)
    rw [List.getElem_mapIdx, List.getElem_map]
    exact subRuleFromReq_toJson (List.getElem_mem hj') (drawRule j)
  have hinterval : (subscriptionToJson s).getUint32 "interval" = some s.interval :=
    getUint32_of_lt rfl hs.1
  have hupdate : (subscriptionToJson s).getUint32 "lastUpdate" = some s.lastUpdate :=
    getUint32_of_lt rfl hs.2
  unfold subscriptionFromReq
  rw [hid]
  dsimp only
  rw [if_neg (by simp), hrules]
  dsimp only
  rw [hinterval, hupdate]
  rfl

theorem buildSubscriptions_toJson {a : App κ}
    (hn : (a.subscriptions.items.map Subscription.id).Nodup) (draw : SubDraw)
    {ss : List Subscription} (hss : ∀ s ∈ ss, s ∈ a.subscriptions.items)
    (hurl : ∀ s ∈ ss, s.url ≠ []) (hrange : ∀ s ∈ ss, SubscriptionInRange s) (i : Nat) :
    a.buildSubscriptions draw i (ss.map subscriptionToJson) =
      (ss.map Subscription.rebuilt, none) := by
  induction ss generalizing i with
  | nil => rfl
  | cons s ss ih =>
    have hid : (subscriptionToJson s).parseOptionalId "id" = some (some s.id) := by
      show (Id.parse s.id.format).map some = _
      rw [Id.parse_format]
      rfl
    have hne : ¬ (subscriptionToJson s).getString "url" = [] := hurl s List.mem_cons_self
    rw [List.map_cons, App.buildSubscriptions, if_neg hne, hid]
    dsimp only
    rw [find?_of_nodup hn (hss s List.mem_cons_self),
      subscriptionFromReq_toJson (hrange s List.mem_cons_self)]
    dsimp only
    rw [ih (fun s' hs' => hss s' (List.mem_cons_of_mem _ hs'))
      (fun s' hs' => hurl s' (List.mem_cons_of_mem _ hs'))
      (fun s' hs' => hrange s' (List.mem_cons_of_mem _ hs'))]
    rfl

theorem ensureUnique_of_nodup {α : Type} {idOf : α → Id} (setId : α → Id → α)
    (fresh : List Id → Id) {xs : List α} {seen : List Id}
    (hzero : ∀ x ∈ xs, (idOf x).isZero = false) (hn : (seen ++ xs.map idOf).Nodup) :
    ensureUnique idOf setId fresh seen xs = xs := by
  induction xs generalizing seen with
  | nil => rfl
  | cons x xs ih =>
    have hseen : idOf x ∉ seen := by
      intro hmem
      exact (List.nodup_append.mp hn).2.2 _ hmem _ List.mem_cons_self rfl
    have hkeep : ((idOf x).isZero || seen.contains (idOf x)) = false := by
      rw [hzero x List.mem_cons_self, Bool.false_or]
      simpa using hseen
    rw [ensureUnique, hkeep]
    rw [if_neg Bool.false_ne_true, ih (fun y hy => hzero y (List.mem_cons_of_mem _ hy))]
    rwa [List.append_assoc, List.singleton_append]

/-- Subscriptions with urls, and with ids that are distinct and not zero, their rules likewise. -/
structure SubscriptionsProper (ss : List Subscription) : Prop where
  urls : ∀ s ∈ ss, s.url ≠ []
  ids : (ss.map Subscription.id).Nodup
  nonzero : ∀ s ∈ ss, s.id.isZero = false
  ruleIds : ∀ s ∈ ss, (s.rules.items.map SubRule.id).Nodup
  ruleNonzero : ∀ s ∈ ss, ∀ r ∈ s.rules.items, r.id.isZero = false
  range : ∀ s ∈ ss, SubscriptionInRange s

theorem ensureUniqueSubscriptionRuleIds_rebuilt {ss : List Subscription}
    (h : SubscriptionsProper ss) (fresh : List Id → Id) {s : Subscription} (hs : s ∈ ss) :
    ensureUniqueSubscriptionRuleIds fresh s.rebuilt = s.rebuilt := by
  have hitems : s.rebuilt.rules.items = s.rules.items := by
    show (CArray.empty.pushAll s.rules.items).items = _
    rw [CArray.items_pushAll]
    rfl
  unfold ensureUniqueSubscriptionRuleIds CArray.mapItems
  rw [ensureUnique_of_nodup]
  · intro r hr
    rw [hitems] at hr
    exact h.ruleNonzero s hs r hr
  · rw [hitems, List.nil_append]
    exact h.ruleIds s hs

theorem subscriptions_maybeSave (a : App κ) (save : Bool) :
    (a.maybeSave save).subscriptions = a.subscriptions := by
  unfold App.maybeSave
  split <;> rfl

/-- The new list, or the old one if the kernel turns it down. -/
theorem subscriptions_replaceSubscriptions (a : App κ) (subs : List Subscription)
    (fail fail' : Option (Nat × Err)) :
    (a.replaceSubscriptions subs fail fail').1.subscriptions.items = subs ∨
      (a.replaceSubscriptions subs fail fail').1.subscriptions = a.subscriptions := by
  unfold App.replaceSubscriptions App.rebuildSubscriptionRulesets
  cases fail with
  | none => exact .inl rfl
  | some f =>
    cases fail' with
    | none => exact .inr rfl
    | some f' => exact .inr rfl

/-- `GET /subscriptions`, then `PUT /subscriptions` with that body. -/
theorem putSubscriptions_readBack {a : App κ} (h : SubscriptionsProper a.subscriptions.items)
    (draw : SubDraw) (save : Bool) (fail fail' : Option (Nat × Err)) :
    (a.handlePutSubscriptions draw a.handleGetSubscriptions.body save fail
        fail').1.subscriptions.items.map Subscription.contents =
      a.subscriptions.items.map Subscription.contents := by
  have harr : (Json.obj [(str "subscriptions",
      .arr (a.subscriptions.items.map subscriptionToJson))]).getArray "subscriptions" =
      some (a.subscriptions.items.map subscriptionToJson) := rfl
  have hids : (a.subscriptions.items.map Subscription.rebuilt).map Subscription.id =
      a.subscriptions.items.map Subscription.id := by
    rw [List.map_map]
    rfl
  have hunique : ensureUniqueSubscriptionIds draw.fresh
      (a.subscriptions.items.map Subscription.rebuilt) =
      a.subscriptions.items.map Subscription.rebuilt := by
    refine ensureUnique_of_nodup _ _ (fun s hs => ?_) ?_
    · obtain ⟨s₀, hs₀, rfl⟩ := List.mem_map.mp hs
      exact h.nonzero s₀ hs₀
    · rw [hids, List.nil_append]
      exact h.ids
  have hrules : (a.subscriptions.items.map Subscription.rebuilt).map
      (ensureUniqueSubscriptionRuleIds draw.fresh) =
      a.subscriptions.items.map Subscription.rebuilt := by
    rw [List.map_map]
    exact List.map_congr_left fun s hs => ensureUniqueSubscriptionRuleIds_rebuilt h draw.fresh hs
  have hcontents : (a.subscriptions.items.map Subscription.rebuilt).map Subscription.contents =
      a.subscriptions.items.map Subscription.contents := by
    rw [List.map_map]
    exact List.map_congr_left fun s _ => contents_rebuilt_subscription s
  show (a.handlePutSubscriptions draw (some (.obj _)) save fail fail').1.subscriptions.items.map
    _ = _
  rw [App.handlePutSubscriptions]
  dsimp only
  rw [harr]
  dsimp only
  rw [buildSubscriptions_toJson h.ids draw (fun s hs => hs) h.urls h.range]
  dsimp only
  rw [hunique, hrules]
  -- whether the new list is taken or the old one is put back, the contents are the same
  have hreplace := subscriptions_replaceSubscriptions
    (a.log ((a.subscriptions.items.map Subscription.rebuilt).flatMap builtSubStores))
    (a.subscriptions.items.map Subscription.rebuilt) fail fail'
  have hall : ∀ b : App κ,
      b.subscriptions.items = a.subscriptions.items.map Subscription.rebuilt ∨
        b.subscriptions = a.subscriptions →
      b.subscriptions.items.map Subscription.contents =
        a.subscriptions.items.map Subscription.contents := by
    rintro b (hb | hb)
    · rw [hb, hcontents]
    · rw [hb]
  split
  · next b e hb =>
    rw [hb] at hreplace
    exact hall b hreplace
  · next b hb =>
    rw [hb] at hreplace
    dsimp only
    rw [subscriptions_maybeSave]
    exact hall b hreplace

/-! ## The two requests -/

/-- In every state of a daemon: what `GET` answers, sent back with `PUT`, leaves groups and
subscriptions as they were, exactly if the kernel takes every group again. -/
theorem writeBack_iff {doc : Option Doc} {ops : List (Op κ)} {a : App κ}
    (h : daemon doc ops = some a) (hu : UniqueIds a.configGroups)
    (hs : SubscriptionsProper a.subscriptions.items) (k : Kernel κ) (draw : Draw) (save : Bool)
    (draw' : SubDraw) (save' : Bool) (fail fail' : Option (Nat × Err)) :
    ((a.handlePutGroups k draw (a.handleGetGroups true).body save).1.configGroups.map
          Group.contents = a.configGroups.map Group.contents ∧
        (a.handlePutSubscriptions draw' a.handleGetSubscriptions.body save' fail
          fail').1.subscriptions.items.map Subscription.contents =
            a.subscriptions.items.map Subscription.contents) ↔
      (a.running → ∀ g ∈ a.configGroups, k.Accepts g.rebuilt) := by
  rw [putGroups_readBack_iff hu (daemon_coloured h)]
  exact and_iff_left (putSubscriptions_readBack hs draw' save' fail fail')

def groupAndSubscription : List (Op Unit) :=
  [.setRunning .willing,
    .request .willing (.counting 1) (.createGroup (some (.obj [(str "color", .str (str "#ABCDEF")),
      (str "rules", .arr [.obj [(str "rule", .str (str "example.com"))]])])) false),
    .createSubscription ⟨.counting 2, fun _ => ⟨2, 2, 2, 2⟩⟩
      (some (.obj [(str "url", .str (str "https://example.com/list")), (str "interval", .num 60),
        (str "rules", .arr [.obj [(str "rule", .str (str "example.org"))]])])) false none none]

def refusing : Kernel Unit := ⟨fun _ => .error .sys, fun _ _ => ((), none), fun _ _ => (none, none)⟩

theorem writeBack_iff_groupAndSubscription : ∃ a, daemon none groupAndSubscription = some a ∧
    a.configGroups.length = 1 ∧ a.subscriptions.items.length = 1 ∧
    (a.handlePutGroups .willing (.counting 3) (a.handleGetGroups true).body true).1.configGroups.map
      Group.contents = a.configGroups.map Group.contents := by
  refine ⟨_, rfl, rfl, rfl, ?_⟩
  refine ((@writeBack_iff Unit none groupAndSubscription _ rfl (by decide +kernel) ?_
    .willing (.counting 3) true ⟨.counting 4, fun _ => ⟨4, 4, 4, 4⟩⟩ true none none).mpr ?_).1
  · exact ⟨by decide +kernel, by decide +kernel, by decide +kernel, by decide +kernel,
      by decide +kernel, by unfold SubscriptionInRange; decide +kernel⟩
  · exact fun _ g _ _ => ⟨(), rfl, rfl⟩

/-- The kernel turns the group down when it is added again, and the group is gone. -/
theorem putGroups_loses_group : ∃ a, daemon none groupAndSubscription = some a ∧
    UniqueIds a.configGroups ∧
    (a.handlePutGroups refusing (.counting 3) (a.handleGetGroups true).body true).1.configGroups = [] ∧
    a.configGroups.length = 1 := by
  refine ⟨_, rfl, ?_, ?_, rfl⟩
  · decide +kernel
  · decide +kernel

end Api

end MagiTrickle
