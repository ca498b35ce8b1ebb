import MagiTrickle.Runtime.App

/-!
# Requests, reload and runs

The handlers of `api/groups.c` and `api/subscriptions_api.c` on the objects of
`Runtime/App`, with `reload_config` and the start of `main/main.c`. What a body
is turned into is computed as in `Api/Groups` and `Api/Subscriptions`, on the
groups and subscriptions the application has at that moment (`view`).
-/

namespace MagiTrickle.Runtime

open Config Api Rules

namespace Daemon

def view (d : Daemon) : App Unit where
  groups := ⟨d.user.rulesets.map fun rs => ⟨d.heap.get rs.group, rs.enabled, none⟩, none⟩
  subscriptions := ⟨d.configSubs, none⟩
  running := d.running
  saved := none
  stores := []

def setRuleset (d : Daemon) (i : Nat) (rs : RulesetObj) (nf : Nf) : Daemon :=
  { d with user := { d.user with rulesets := d.user.rulesets.set i rs }, nf := nf }

/-! ## Groups and rules -/

/-- `resolve_group`. -/
def resolveGroup (d : Daemon) (groupID : Bytes) : Except Reply (Nat × RulesetObj) :=
  match Id.parse groupID with
  | none => .error (.refused 400 (str "invalid group id"))
  | some id =>
    match d.findGroupById id with
    | none => .error (.refused 404 (str "group not exist"))
    | some i =>
      match d.user.rulesets[i]? with
      | none => .error (.refused 404 (str "group not exist"))
      | some rs => .ok (i, rs)

/-- `handle_put_groups`. -/
def handlePutGroups (draw : Draw) (d : Daemon) (body : Option Json) : Daemon × Reply :=
  match body with
  | none => (d, .refused 400 (str "failed to parse request"))
  | some json =>
    match json.getArray "groups" with
    | none => (d, .refused 400 (str "no groups in request"))
    | some reqs =>
      let r := Registry.disableAll d.heap d.user.rulesets d.nf
      let d := { d with user := { d.user with rulesets := r.1 }, nf := r.2 }
      match d.view.buildGroups draw 0 reqs with
      | (_, some msg) => (d, .refused 400 msg)
      | (built, none) =>
        match d.clearGroups.addGroups built with
        | (d, some e) => (d, e.reply)
        | (d, none) =>
          (d, .ok (some (.obj [(str "groups", .arr (built.map fun g => groupToJson g true))])))

/-- `handle_create_group`. -/
def handleCreateGroup (draw : Draw) (d : Daemon) (body : Option Json) : Daemon × Reply :=
  match body with
  | none => (d, .refused 400 (str "failed to parse request"))
  | some json =>
    match groupFromReq json none (draw.group 0) (draw.rule 0) with
    | .error msg => (d, .refused 400 msg)
    | .ok g =>
      match d.addGroups [g] with
      | (d, some e) => (d, e.reply)
      | (d, none) => (d, .ok (some (groupToJson g true)))

/-- The end of `handle_put_group`: the object is overwritten in place and, if its ruleset was up,
brought up again. -/
def replaceGroup (d : Daemon) (i : Nat) (rs : RulesetObj) (g : Group) (wasEnabled : Bool) :
    Daemon × Reply :=
  let d := { d with heap := d.heap.write rs.group g }.republish
  if wasEnabled then
    match rs.start d.deps g d.nf with
    | (rs, some e, nf) => (d.setRuleset i rs nf, .failed e)
    | (rs, none, nf) => (d.setRuleset i rs nf, .ok (some (groupToJson g true)))
  else (d, .ok (some (groupToJson g true)))

/-- `handle_put_group`. -/
def handlePutGroup (draw : Draw) (d : Daemon) (groupID : Bytes) (body : Option Json) :
    Daemon × Reply :=
  match d.resolveGroup groupID with
  | .error r => (d, r)
  | .ok (i, rs) =>
    match body with
    | none => (d, .refused 400 (str "failed to parse request"))
    | some json =>
      let live := d.heap.get rs.group
      -- a ruleset that is down stays as it is
      match rs.disable live d.nf with
      | (rs', some e, nf) => (d.setRuleset i rs' nf, .failed e)
      | (rs', none, nf) =>
        let d := d.setRuleset i rs' nf
        match groupFromReq json (some live) (draw.group 0) (draw.rule 0) with
        | .error msg => (d, .refused 400 msg)
        | .ok built => d.replaceGroup i rs' (groupMoveInto live built) rs.enabled

/-- `handle_delete_group`. -/
def handleDeleteGroup (d : Daemon) (groupID : Bytes) : Daemon × Reply :=
  match d.resolveGroup groupID with
  | .error r => (d, r)
  | .ok (i, rs) =>
    match rs.disable (d.heap.get rs.group) d.nf with
    | (rs', some e, nf) => (d.setRuleset i rs' nf, .failed e)
    | (rs', none, nf) =>
      ((d.setRuleset i rs' nf).removeGroupById (d.heap.get rs.group).id, .ok none)

/-- The end of the handlers that change rules in place. -/
def syncAfterEdit (d : Daemon) (rs : RulesetObj) (g : Group) (body : Option Json) :
    Daemon × Reply :=
  let d := { d with heap := d.heap.write rs.group g }.republish
  match rs.sync g d.nf with
  | (some e, nf) => ({ d with nf := nf }, .failed e)
  | (none, nf) => ({ d with nf := nf }, .ok body)

/-- `handle_put_rules`. -/
def handlePutRules (draw : Draw) (d : Daemon) (groupID : Bytes) (body : Option Json) :
    Daemon × Reply :=
  match d.resolveGroup groupID with
  | .error r => (d, r)
  | .ok (_, rs) =>
    match body with
    | none => (d, .refused 400 (str "failed to parse request"))
    | some json =>
      match json.getArray "rules" with
      | none => (d, .refused 400 (str "no rules in request"))
      | some reqs =>
        let g := d.heap.get rs.group
        match App.rulesFromReqStrict g.rules.items (draw.rule 0) 0 reqs with
        | .error .noent => (d, .refused 404 (str "rule not found"))
        | .error _ => (d, .refused 400 (str "invalid rule"))
        | .ok rules =>
          d.syncAfterEdit rs { g with rules := .exact rules } (some (wrapRules rules))

/-- `handle_create_rule`. -/
def handleCreateRule (draw : Draw) (d : Daemon) (groupID : Bytes) (body : Option Json) :
    Daemon × Reply :=
  match d.resolveGroup groupID with
  | .error r => (d, r)
  | .ok (_, rs) =>
    match body with
    | none => (d, .refused 400 (str "failed to parse request"))
    | some json =>
      let g := d.heap.get rs.group
      let r := ruleFromReq json g.rules.items (draw.rule 0 0)
      d.syncAfterEdit rs { g with rules := g.rules.push r } (some (ruleToJson r))

/-- `handle_put_rule`. -/
def handlePutRule (d : Daemon) (groupID ruleID : Bytes) (body : Option Json) : Daemon × Reply :=
  match d.resolveGroup groupID with
  | .error r => (d, r)
  | .ok (_, rs) =>
    let g := d.heap.get rs.group
    match App.resolveRule g ruleID with
    | .error r => (d, r)
    | .ok (j, r) =>
      match body with
      | none => (d, .refused 400 (str "failed to parse request"))
      | some json =>
        let r := fillRuleFields r json
        d.syncAfterEdit rs { g with rules := g.rules.mapItems fun rs => rs.set j r }
          (some (ruleToJson r))

/-- `handle_delete_rule`. -/
def handleDeleteRule (d : Daemon) (groupID ruleID : Bytes) : Daemon × Reply :=
  match d.resolveGroup groupID with
  | .error r => (d, r)
  | .ok (_, rs) =>
    let g := d.heap.get rs.group
    match App.resolveRule g ruleID with
    | .error r => (d, r)
    | .ok (j, _) => d.syncAfterEdit rs { g with rules := g.rules.eraseIdx j } none

/-- The routes of `mt_groups_register_routes`. -/
def handle (draw : Draw) (d : Daemon) : Request → Daemon × Reply
  | .putGroups body _ => d.handlePutGroups draw body
  | .createGroup body _ => d.handleCreateGroup draw body
  | .putGroup groupID body _ => d.handlePutGroup draw groupID body
  | .deleteGroup groupID _ => d.handleDeleteGroup groupID
  | .putRules groupID body _ => d.handlePutRules draw groupID body
  | .createRule groupID body _ => d.handleCreateRule draw groupID body
  | .putRule groupID ruleID body _ => d.handlePutRule groupID ruleID body
  | .deleteRule groupID ruleID _ => d.handleDeleteRule groupID ruleID
  | .getGroups withRules => (d, d.view.handleGetGroups withRules)
  | .getGroup groupID withRules => (d, d.view.handleGetGroup groupID withRules)
  | .getRules groupID => (d, d.view.handleGetRules groupID)
  | .getRule groupID ruleID => (d, d.view.handleGetRule groupID ruleID)

/-! ## Subscriptions -/

/-- `handle_put_subscriptions`. -/
def handlePutSubscriptions (draw : SubDraw) (d : Daemon) (body : Option Json) : Daemon × Reply :=
  match body with
  | none => (d, .refused 400 (str "failed to parse request"))
  | some json =>
    match json.getArray "subscriptions" with
    | none => (d, .refused 400 (str "no subscriptions in request"))
    | some reqs =>
      match d.view.buildSubscriptions draw 0 reqs with
      | (_, some msg) => (d, .refused 400 msg)
      | (built, none) =>
        let subs := (ensureUniqueSubscriptionIds draw.fresh built).map
          (ensureUniqueSubscriptionRuleIds draw.fresh)
        match d.replaceSubscriptions subs with
        | (d, some e) => (d, .failed e)
        | (d, none) => (d, .ok (some statusOkJson))

/-- `handle_create_subscription`. -/
def handleCreateSubscription (draw : SubDraw) (d : Daemon) (body : Option Json) :
    Daemon × Reply :=
  match body with
  | none => (d, .refused 400 (str "failed to parse request"))
  | some json =>
    if json.getString "url" = [] then (d, .refused 400 (str "subscription url is required"))
    else
      match subscriptionFromReq json none (draw.group 0) (draw.rule 0) with
      | .error msg => (d, .refused 400 msg)
      | .ok s =>
        match d.addSubscription (ensureUniqueSubscriptionRuleIds draw.fresh s) with
        | (d, some .exist) => (d, .refused 409 Err.exist.str)
        | (d, some e) => (d, .failed e)
        | (d, none) => (d, .ok (some statusOkJson))

/-- `handle_delete_subscription`. -/
def handleDeleteSubscription (d : Daemon) (subscriptionID : Bytes) : Daemon × Reply :=
  match Id.parse subscriptionID with
  | none => (d, .refused 400 (str "invalid subscription id"))
  | some id =>
    match d.removeSubscriptionById id with
    | (d, _, some e) => (d, .failed e)
    | (d, false, none) => (d, .refused 404 (str "subscription not found"))
    | (d, true, none) => (d, .ok (some statusOkJson))

/-- `handle_sync_subscription`. -/
def handleSyncSubscription (fetch : Fetch) (d : Daemon) (subscriptionID : Bytes)
    (body : Option (Option Json)) (now : Nat) : Daemon × Reply :=
  match Id.parse subscriptionID with
  | none => (d, .refused 400 (str "invalid subscription id"))
  | some id =>
    match body with
    | some none => (d, .refused 400 (str "failed to parse request"))
    | body =>
      let url := body.join.map fun j => j.getString "url"
      match d.syncSubscriptionById fetch id now url with
      | (d, .error .noent) => (d, .refused 404 (str "subscription not found"))
      | (d, .error .inval) => (d, .refused 400 (str "subscription invalid"))
      | (d, .error .upstream) => (d, .refused 502 (str "subscription fetch failed"))
      | (d, .error e) => (d, .failed e)
      | (d, .ok _) =>
        (d, .ok ((d.subs.find id).map fun s =>
          .obj [(str "rules", .arr (s.2.config.rules.items.map subRuleToJson)),
            (str "lastUpdate", .num s.2.config.lastUpdate), (str "url", .str s.2.config.url)]))

end Daemon

/-- The functions of `api/app.c` that change the subscriptions. -/
inductive SubOp where
  | add (s : Subscription)
  | replace (subs : List Subscription)
  | remove (id : Id)
  | sync (fetch : Fetch) (id : Id) (now : Nat) (url : Option Bytes)
  | syncDue (fetch : Nat → Fetch) (now : Nat)

def errorOf {α : Type} : Except Err α → Option Err
  | .ok _ => none
  | .error e => some e

namespace Daemon

def call (d : Daemon) : SubOp → Daemon × Option Err
  | .add s => d.addSubscription s
  | .replace subs => d.replaceSubscriptions subs
  | .remove id =>
    let r := d.removeSubscriptionById id
    (r.1, r.2.2)
  | .sync fetch id now url =>
    let r := d.syncSubscriptionById fetch id now url
    (r.1, errorOf r.2)
  | .syncDue fetch now => d.syncDueSubscriptions fetch now

/-! ## Start and reload -/

/-- `reload_config`. The file may be missing. -/
def reloadConfig (d : Daemon) (doc : Option Doc) : Daemon :=
  match doc with
  | none => d
  | some doc =>
    match (loadBuffer initDefaults doc).2 with
    | .error _ => d
    | .ok cfg =>
      let d := if cfg.groupsPresent then (d.clearGroups.addGroups cfg.groups.items).1 else d
      if cfg.subscriptionsPresent then (d.replaceSubscriptions cfg.subscriptions.items).1 else d

/-- The first loop of `mt_app_create`. -/
def createRulesets (d : Daemon) : List Group → Daemon
  | [] => d
  | g :: gs =>
    let p := d.heap.next
    { d with heap := d.heap.alloc g, user := d.user.push p (.new p) }.createRulesets gs

/-- The snapshot of `main` and `mt_app_create`. -/
def create (deps : Deps) (cfg : Config) (answers : List (Option Err)) : Daemon :=
  let a := Subs.adopt ⟨[], 0, []⟩ cfg.subscriptions.items
  let d : Daemon := {
    deps := deps
    heap := ⟨fun _ => none, 0⟩
    user := .empty
    subs := { a.2 with list := a.1 }
    synth := .empty
    running := false
    snapshot := rulesetSnapshotBuild cfg.groups.items cfg.subscriptions.items
    nf := ⟨answers, []⟩ }
  (d.createRulesets cfg.groups.items).rebuild.1

end Daemon

/-- The start of all rulesets of an array, up to the first error. -/
def startAll (k : Deps) (h : Heap) : List RulesetObj → Nf → List RulesetObj × Option Err × Nf
  | [], nf => ([], none, nf)
  | rs :: rss, nf =>
    match rs.start k (h.get rs.group) nf with
    | (rs, some e, nf) => (rs :: rss, some e, nf)
    | (rs, none, nf) =>
      let r := startAll k h rss nf
      (rs :: r.1, r.2)

namespace Daemon

/-- The start-up of `main`, which gives up at an error. -/
def launch (deps : Deps) (cfg : Config) (answers : List (Option Err)) : Except Err Daemon :=
  let d := create deps cfg answers
  match startAll deps d.heap d.user.rulesets d.nf with
  | (_, some e, _) => .error e
  | (user, none, nf) =>
    match startAll deps d.heap d.synth.rulesets nf with
    | (_, some e, _) => .error e
    | (synth, none, nf) =>
      .ok { d with
        user := { d.user with rulesets := user }
        synth := { d.synth with rulesets := synth }
        running := true
        nf := nf }

end Daemon

inductive Op where
  | request (draw : Draw) (req : Request)
  | putSubscriptions (draw : SubDraw) (body : Option Json)
  | createSubscription (draw : SubDraw) (body : Option Json)
  | deleteSubscription (subscriptionID : Bytes)
  | syncSubscription (fetch : Fetch) (subscriptionID : Bytes) (body : Option (Option Json))
      (now : Nat)
  | syncDue (fetch : Nat → Fetch) (now : Nat)
  | reload (doc : Option Doc)
  | onMatch (a : Pipeline.Action)

namespace Daemon

def step (d : Daemon) : Op → Daemon
  | .request draw req => (d.handle draw req).1
  | .putSubscriptions draw body => (d.handlePutSubscriptions draw body).1
  | .createSubscription draw body => (d.handleCreateSubscription draw body).1
  | .deleteSubscription id => (d.handleDeleteSubscription id).1
  | .syncSubscription fetch id body now => (d.handleSyncSubscription fetch id body now).1
  | .syncDue fetch now => (d.syncDueSubscriptions fetch now).1
  | .reload doc => d.reloadConfig doc
  | .onMatch a => d.onMatch a

def run (d : Daemon) (ops : List Op) : Daemon := ops.foldl step d

end Daemon

end MagiTrickle.Runtime
