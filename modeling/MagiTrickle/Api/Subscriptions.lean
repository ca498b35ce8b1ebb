import MagiTrickle.Api.Groups

/-!
# Subscription endpoints, synchronisation and reload

`api/subscriptions_api.c`, the sync of `api/app.c`, and `reload_config` of
`main/main.c`. Fetching a list, parsing it and comparing it with the present
rules is a parameter (`Fetch`): it answers with the refreshed rules and whether
they differ. `fail` and `fail'` are the outcomes of a rebuild of the rulesets
and of the rebuild that rolls back.
-/

namespace MagiTrickle.Api

open MagiTrickle.Config

/-- `mt_sub_fetch_list`, `mt_sub_refresh_rules` and `mt_sub_same_rules` for one subscription. -/
abbrev Fetch := Bytes → Subscription → Except Err (List SubRule × Bool)

/-- The values of `mt_id_random` for a subscription body, and the outcome of a loop that draws
until the id is none of the given ones. -/
structure SubDraw extends Draw where
  fresh : List Id → Id

/-- One turn of the array growth in `mt_sub_parse_rules`. -/
def parsePush {α : Type} (a : CArray α) (x : α) : CArray α :=
  let cap := a.alloc.getD 0
  ⟨a.items ++ [x],
    if a.items.length = cap then some (if cap = 0 then 16 else cap * 2) else a.alloc⟩

/-- The array `mt_sub_refresh_rules` hands over. -/
def refreshedArray (rules : List SubRule) : CArray SubRule := rules.foldl parsePush .empty

/-! ## Bodies to models -/

/-- `sub_rule_from_req`. -/
def subRuleFromReq (req : Json) (baseline : List SubRule) (draw : Id) : SubRule where
  id :=
    match req.parseOptionalId "id" with
    | some (some id) => if baseline.any (fun r => r.id = id) then id else draw
    | _ => draw
  rule := req.getString "rule"
  type := req.getString "type"
  enable := req.getBool "enable"

/-- The rules of `subscription_from_req`. -/
def subRulesFromReq (req : Json) (existing : Option Subscription) (draw : Nat → Id) :
    Except Bytes (List SubRule) :=
  let baseline := existing.elim [] fun s => s.rules.items
  match req.getItem "rules" with
  | none => .ok baseline
  | some .null => .ok baseline
  | some (.arr reqs) => .ok (reqs.mapIdx fun j req => subRuleFromReq req baseline (draw j))
  | some _ => .error (str "invalid rules")

/-- `subscription_from_req`. -/
def subscriptionFromReq (req : Json) (existing : Option Subscription) (drawSub : Id)
    (drawRule : Nat → Id) : Except Bytes Subscription :=
  match req.parseOptionalId "id" with
  | none => .error (str "invalid subscription id")
  | some reqId =>
    if existing.any fun s => reqId.any fun id => decide (s.id ≠ id) then
      .error (str "subscription ID mismatch")
    else
      match subRulesFromReq req existing drawRule with
      | .error msg => .error msg
      | .ok rules => .ok {
          id := existing.elim (reqId.getD drawSub) Subscription.id
          name := req.getString "name"
          iface := req.getString "interface"
          enable := (req.getOptionalBool "enable").getD true
          url := req.getString "url"
          interval := (req.getUint32 "interval").getD 0
          lastUpdate := (req.getUint32 "lastUpdate").getD (existing.elim 0 Subscription.lastUpdate)
          lastCheck := existing.elim 0 Subscription.lastCheck
          rules := CArray.empty.pushAll rules }

/-- The appends `subscription_from_req` made. -/
def builtSubStores (s : Subscription) : List Store :=
  (CArray.empty (α := SubRule)).stores s.rules.items

/-- The loop of `ensure_unique_subscription_ids` and `ensure_unique_subscription_rule_ids`: a zero
id, or one that an earlier element has, is drawn anew. `seen` are the ids of the earlier
elements. -/
def ensureUnique {α : Type} (id : α → Id) (setId : α → Id → α) (fresh : List Id → Id)
    (seen : List Id) : List α → List α
  | [] => []
  | x :: xs =>
    let x := if (id x).isZero || seen.contains (id x) then setId x (fresh seen) else x
    x :: ensureUnique id setId fresh (seen ++ [id x]) xs

/-- `ensure_unique_subscription_ids`. -/
def ensureUniqueSubscriptionIds (fresh : List Id → Id) : List Subscription → List Subscription :=
  ensureUnique Subscription.id (fun s id => { s with id := id }) fresh []

/-- `ensure_unique_subscription_rule_ids`. -/
def ensureUniqueSubscriptionRuleIds (fresh : List Id → Id) (s : Subscription) : Subscription :=
  let rules := s.rules.mapItems (ensureUnique SubRule.id (fun r id => { r with id := id }) fresh [])
  { s with rules := rules }

/-- `mt_sub_is_due`. -/
def subIsDue (s : Subscription) (now : Nat) : Bool :=
  let last := if s.lastCheck = 0 then s.lastUpdate else s.lastCheck
  s.enable && decide (s.url ≠ []) && decide (s.interval ≠ 0) &&
    !(decide (0 < last) && decide (now < last + s.interval))

variable {κ : Type}

namespace App

/-- `handle_get_subscriptions`. -/
def handleGetSubscriptions (a : App κ) : Reply :=
  .ok (some (.obj [(str "subscriptions", .arr (a.subscriptions.items.map subscriptionToJson))]))

/-- The loop of `handle_put_subscriptions`: what was built, and the message that stopped it. -/
def buildSubscriptions (a : App κ) (draw : SubDraw) :
    Nat → List Json → List Subscription × Option Bytes
  | _, [] => ([], none)
  | i, req :: reqs =>
    if req.getString "url" = [] then ([], some (str "subscription url is required"))
    else
      let existing :=
        match req.parseOptionalId "id" with
        | some (some id) => a.subscriptions.items.find? fun s => s.id = id
        | _ => none
      match subscriptionFromReq req existing (draw.group i) (draw.rule i) with
      | .error msg => ([], some msg)
      | .ok s =>
        ((a.buildSubscriptions draw (i + 1) reqs).1.cons s,
          (a.buildSubscriptions draw (i + 1) reqs).2)

/-- `handle_put_subscriptions`. -/
def handlePutSubscriptions (draw : SubDraw) (a : App κ) (body : Option Json) (save : Bool)
    (fail fail' : Option (Nat × Err)) : App κ × Reply :=
  match body with
  | none => (a, .refused 400 (str "failed to parse request"))
  | some json =>
    match json.getArray "subscriptions" with
    | none => (a, .refused 400 (str "no subscriptions in request"))
    | some reqs =>
      match a.buildSubscriptions draw 0 reqs with
      | (built, some msg) => (a.log (built.flatMap builtSubStores), .refused 400 msg)
      | (built, none) =>
        let subs := (ensureUniqueSubscriptionIds draw.fresh built).map
          (ensureUniqueSubscriptionRuleIds draw.fresh)
        match (a.log (built.flatMap builtSubStores)).replaceSubscriptions subs fail fail' with
        | (a, some e) => (a, .failed e)
        | (a, none) => (a.maybeSave save, .ok (some statusOkJson))

/-- `handle_create_subscription`. -/
def handleCreateSubscription (draw : SubDraw) (a : App κ) (body : Option Json) (save : Bool)
    (fail fail' : Option (Nat × Err)) : App κ × Reply :=
  match body with
  | none => (a, .refused 400 (str "failed to parse request"))
  | some json =>
    if json.getString "url" = [] then (a, .refused 400 (str "subscription url is required"))
    else
      match subscriptionFromReq json none (draw.group 0) (draw.rule 0) with
      | .error msg => (a, .refused 400 msg)
      | .ok s =>
        match (a.log (builtSubStores s)).addSubscription
            (ensureUniqueSubscriptionRuleIds draw.fresh s) fail fail' with
        | (a, some .exist) => (a, .refused 409 Err.exist.str)
        | (a, some e) => (a, .failed e)
        | (a, none) => (a.maybeSave save, .ok (some statusOkJson))

/-- `handle_delete_subscription`. -/
def handleDeleteSubscription (a : App κ) (subscriptionID : Bytes) (save : Bool)
    (fail fail' : Option (Nat × Err)) : App κ × Reply :=
  match Id.parse subscriptionID with
  | none => (a, .refused 400 (str "invalid subscription id"))
  | some id =>
    match a.removeSubscriptionById id fail fail' with
    | (a, _, some e) => (a, .failed e)
    | (a, false, none) => (a, .refused 404 (str "subscription not found"))
    | (a, true, none) => (a.maybeSave save, .ok (some statusOkJson))

/-! ## Synchronisation -/

/-- The subscription at `i` changed in place. -/
def modifySub (a : App κ) (i : Nat) (f : Subscription → Subscription) : App κ :=
  { a with subscriptions := a.subscriptions.mapItems fun ss => ss.modify i f }

/-- `mt_app_sync_subscription_by_id_unlocked`. -/
def syncSubscriptionById (fetch : Fetch) (a : App κ) (id : Id) (now : Nat)
    (urlOverride : Option Bytes) (fail fail' : Option (Nat × Err)) : App κ × Except Err Bool :=
  match a.subscriptions.items.findIdx? (fun s => s.id = id) with
  | none => (a, .error .noent)
  | some i =>
    match a.subscriptions.items[i]? with
    | none => (a, .error .noent)
    | some s =>
      let url := (urlOverride.filter fun u => u ≠ []).getD s.url
      if url = [] then (a, .error .inval)
      else
        match fetch url s with
        | .error e => (a, .error e)
        | .ok (_, false) =>
          (a.modifySub i fun s => { s with url := url, lastCheck := now % 2 ^ 32 },
            .ok (s.url ≠ url))
        | .ok (rules, true) =>
          let b := a.modifySub i fun s =>
            { s with url := url, lastCheck := now % 2 ^ 32, lastUpdate := now % 2 ^ 32,
                     rules := refreshedArray rules }
          match b.rebuildSubscriptionRulesets fail with
          | (b, none) => (b.republish, .ok true)
          | (b, some e) =>
            (((b.modifySub i fun _ => s).rebuildSubscriptionRulesets fail').1, .error e)

/-- `handle_sync_subscription`. An empty body asks for no other url; one that does not parse is
refused. -/
def handleSyncSubscription (fetch : Fetch) (a : App κ) (subscriptionID : Bytes)
    (body : Option (Option Json)) (now : Nat) (save : Bool) (fail fail' : Option (Nat × Err)) :
    App κ × Reply :=
  match Id.parse subscriptionID with
  | none => (a, .refused 400 (str "invalid subscription id"))
  | some id =>
    match body with
    | some none => (a, .refused 400 (str "failed to parse request"))
    | body =>
      let url := body.join.map fun j => j.getString "url"
      match a.syncSubscriptionById fetch id now url fail fail' with
      | (a, .error .noent) => (a, .refused 404 (str "subscription not found"))
      | (a, .error .inval) => (a, .refused 400 (str "subscription invalid"))
      | (a, .error .upstream) => (a, .refused 502 (str "subscription fetch failed"))
      | (a, .error e) => (a, .failed e)
      | (a, .ok changed) =>
        let sub := a.subscriptions.items.find? fun s => s.id = id
        (a.maybeSave (changed && save), .ok (sub.map fun s =>
          .obj [(str "rules", .arr (s.rules.items.map subRuleToJson)),
            (str "lastUpdate", .num s.lastUpdate), (str "url", .str s.url)]))

/-- A plan of `mt_app_sync_due_subscriptions_unlocked`: the subscription, and its refreshed rules
if they differ. -/
structure SubPlan where
  id : Id
  refreshed : Option (List SubRule)

def duePlans (fetch : Fetch) (a : App κ) (now : Nat) : List SubPlan :=
  ((a.subscriptions.items.filter fun s => subIsDue s now).map Subscription.id).filterMap fun id => do
    let s ← a.subscriptions.items.find? fun s => s.id = id
    guard (s.url ≠ [])
    let (rules, changed) ← (fetch s.url s).toOption
    return ⟨id, if changed then some rules else none⟩

/-- The plans carried out. Returned with the subscriptions as they were, for a rollback. -/
def applyPlans (now : Nat) (a : App κ) : List SubPlan → App κ × List (Nat × Subscription)
  | [] => (a, [])
  | p :: ps =>
    match a.subscriptions.items.findIdx? (fun s => s.id = p.id) with
    | none => a.applyPlans now ps
    | some i =>
      let b := a.modifySub i fun s =>
        match p.refreshed with
        | none => { s with lastCheck := now % 2 ^ 32 }
        | some rules => { s with lastCheck := now % 2 ^ 32, lastUpdate := now % 2 ^ 32,
                                 rules := refreshedArray rules }
      let r := b.applyPlans now ps
      (r.1, (a.subscriptions.items[i]?.map fun s => (i, s)).toList ++ r.2)

/-- `mt_app_sync_due_subscriptions_unlocked`, and the save of the timer that calls it. -/
def syncDueSubscriptions (fetch : Fetch) (a : App κ) (now : Nat) (fail fail' : Option (Nat × Err)) :
    App κ × Option Err :=
  let plans := a.duePlans fetch now
  let (b, old) := a.applyPlans now plans
  if plans.any fun p => p.refreshed.isSome then
    match b.rebuildSubscriptionRulesets fail with
    | (b, none) => (b.republish.save, none)
    | (b, some e) =>
      let c := old.foldl (fun c o => c.modifySub o.1 fun _ => o.2) b
      ((c.rebuildSubscriptionRulesets fail').1.save, some e)
  else (b, none)

/-! ## Start and reload -/

/-- `mt_app_create`. The kernel is not touched before the daemon is running. -/
def create (cfg : Config) (st : List Store) : App κ :=
  let a : App κ := {
    groups := ⟨cfg.groups.items.map Live.new, cfg.groups.alloc⟩
    subscriptions := cfg.subscriptions
    running := false
    saved := none
    stores := st }
  (a.rebuildSubscriptionRulesets none).1

/-- The start-up loop of `main`, then `mt_app_set_running`. `main` gives up at an error; the model
goes on. -/
def setRunning (k : Kernel κ) (a : App κ) : App κ :=
  { a with
    groups := a.groups.mapItems fun ls => ls.map fun l => (l.start k).1
    running := true }

/-- `reload_config`. The file may be missing. -/
def reloadConfig (k : Kernel κ) (a : App κ) (doc : Option Doc) (fail fail' : Option (Nat × Err)) :
    App κ :=
  match doc with
  | none => a
  | some doc =>
    match loadBuffer initDefaults doc with
    | (st, .error _) => a.log st
    | (st, .ok cfg) =>
      let a := a.log st
      let a := if cfg.groupsPresent then (a.clearGroups.addGroups k cfg.groups.items).1 else a
      if cfg.subscriptionsPresent then
        (a.replaceSubscriptions cfg.subscriptions.items fail fail').1
      else a

/-! ## Operations -/

end App

inductive Op (κ : Type) where
  | request (k : Kernel κ) (draw : Draw) (req : Request)
  | putSubscriptions (draw : SubDraw) (body : Option Json) (save : Bool)
      (fail fail' : Option (Nat × Err))
  | createSubscription (draw : SubDraw) (body : Option Json) (save : Bool)
      (fail fail' : Option (Nat × Err))
  | deleteSubscription (subscriptionID : Bytes) (save : Bool) (fail fail' : Option (Nat × Err))
  | syncSubscription (fetch : Fetch) (subscriptionID : Bytes) (body : Option (Option Json))
      (now : Nat) (save : Bool) (fail fail' : Option (Nat × Err))
  | syncDue (fetch : Fetch) (now : Nat) (fail fail' : Option (Nat × Err))
  | setRunning (k : Kernel κ)
  | reload (k : Kernel κ) (doc : Option Doc) (fail fail' : Option (Nat × Err))

def App.step (a : App κ) : Op κ → App κ
  | .request k draw req => (a.handle k draw req).1
  | .putSubscriptions draw body save fail fail' =>
    (a.handlePutSubscriptions draw body save fail fail').1
  | .createSubscription draw body save fail fail' =>
    (a.handleCreateSubscription draw body save fail fail').1
  | .deleteSubscription id save fail fail' => (a.handleDeleteSubscription id save fail fail').1
  | .syncSubscription fetch id body now save fail fail' =>
    (a.handleSyncSubscription fetch id body now save fail fail').1
  | .syncDue fetch now fail fail' => (a.syncDueSubscriptions fetch now fail fail').1
  | .setRunning k => a.setRunning k
  | .reload k doc fail fail' => a.reloadConfig k doc fail fail'

/-- The appends of a daemon that loads its configuration, if there is a file, and then performs
the operations. It does not come up if the file does not load. -/
def daemonStores (doc : Option Doc) (ops : List (Op κ)) : List Store :=
  match doc.elim ([], .ok initDefaults) (loadBuffer initDefaults) with
  | (st, .error _) => st
  | (st, .ok cfg) => (ops.foldl App.step (App.create cfg st)).stores

end MagiTrickle.Api
