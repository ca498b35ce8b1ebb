import MagiTrickle.Api.App

/-!
# Group and rule endpoints (`api/groups.c`)

A handler takes the application, the answers of the kernel, the identifiers
drawn at random, and the request; it returns the application after the request
and the reply. The identifier drawn for the `j`-th rule of the `i`-th group of
a body is `draw.rule i j`, that for the group itself `draw.group i`.
-/

namespace MagiTrickle.Api

open MagiTrickle.Config

/-- The values of `mt_id_random` during a request. -/
structure Draw where
  group : Nat → Id
  rule : Nat → Nat → Id

/-- A request to a group or rule endpoint: the parameters of its path, its body, and whether
`save=true` is asked for. -/
inductive Request where
  | putGroups (body : Option Json) (save : Bool)
  | createGroup (body : Option Json) (save : Bool)
  | putGroup (groupID : Bytes) (body : Option Json) (save : Bool)
  | deleteGroup (groupID : Bytes) (save : Bool)
  | putRules (groupID : Bytes) (body : Option Json) (save : Bool)
  | createRule (groupID : Bytes) (body : Option Json) (save : Bool)
  | putRule (groupID ruleID : Bytes) (body : Option Json) (save : Bool)
  | deleteRule (groupID ruleID : Bytes) (save : Bool)
  | getGroups (withRules : Bool)
  | getGroup (groupID : Bytes) (withRules : Bool)
  | getRules (groupID : Bytes)
  | getRule (groupID ruleID : Bytes)

/-! ## Bodies to models -/

/-- `fill_rule_fields`. -/
def fillRuleFields (rule : Rule) (req : Json) : Rule :=
  { rule with
    name := req.getString "name"
    type := req.getString "type"
    rule := req.getString "rule"
    enable := req.getBool "enable" }

def Rule.blank (id : Id) : Rule := ⟨id, [], [], [], false⟩

/-- The id in the body if it names one of the baseline rules. -/
def reusedId (req : Json) (baseline : List Rule) : Option Id :=
  match req.parseOptionalId "id" with
  | some (some id) => if baseline.any (fun r => r.id = id) then some id else none
  | _ => none

/-- `rule_from_req`. -/
def ruleFromReq (req : Json) (baseline : List Rule) (draw : Id) : Rule :=
  fillRuleFields (Rule.blank ((reusedId req baseline).getD draw)) req

/-- `rule_from_req_strict`. -/
def ruleFromReqStrict (req : Json) (existing : List Rule) (draw : Id) : Except Err Rule :=
  match req.parseOptionalId "id" with
  | none => .error .inval
  | some none => .ok (fillRuleFields (Rule.blank draw) req)
  | some (some id) =>
    if existing.any (fun r => r.id = id) then .ok (fillRuleFields (Rule.blank id) req)
    else .error .noent

/-- The loop of `group_from_req` over `rules`. -/
def rulesFromReq (baseline : List Rule) (draw : Nat → Id) (reqs : List Json) : List Rule :=
  reqs.mapIdx fun j req => ruleFromReq req baseline (draw j)

/-- The rules of `group_from_req`: those of the body, or a copy of the existing ones. -/
def groupRulesFromReq (req : Json) (existing : Option Group) (draw : Nat → Id) :
    Except Bytes (List Rule) :=
  let baseline := existing.elim [] fun g => g.rules.items
  match req.getItem "rules" with
  | none => .ok baseline
  | some .null => .ok baseline
  | some (.arr reqs) => .ok (rulesFromReq baseline draw reqs)
  | some _ => .error (str "invalid rules")

/-- `group_from_req`. An error is the message for the client. -/
def groupFromReq (req : Json) (existing : Option Group) (drawGroup : Id) (drawRule : Nat → Id) :
    Except Bytes Group :=
  match req.parseOptionalId "id" with
  | none => .error (str "invalid group id")
  | some reqId =>
    if existing.any fun g => reqId.any fun id => decide (g.id ≠ id) then
      .error (str "group ID mismatch")
    else
      match groupRulesFromReq req existing drawRule with
      | .error msg => .error msg
      | .ok rules => .ok {
          id := existing.elim (reqId.getD drawGroup) Group.id
          name := req.getString "name"
          color := normalizeColor (req.getString "color")
          iface := req.getString "interface"
          enable := (req.getOptionalBool "enable").getD true
          rules := CArray.empty.pushAll rules }

/-- The appends `group_from_req` made for a group. -/
def builtStores (g : Group) : List Store := (CArray.empty (α := Rule)).stores g.rules.items

/-- `group_move_into`: everything but the id. -/
def groupMoveInto (live built : Group) : Group := { built with id := live.id }

variable {κ : Type}

namespace App

/-- The group of a `PUT /groups` entry that exists already. -/
def existingGroup (a : App κ) (req : Json) : Option Group :=
  match req.parseOptionalId "id" with
  | some (some id) => (a.groups.items.find? fun l => l.group.id = id).map Live.group
  | _ => none

/-- The loop of `handle_put_groups` over the body: the groups built, and the message of the entry
that stopped it. -/
def buildGroups (a : App κ) (draw : Draw) : Nat → List Json → List Group × Option Bytes
  | _, [] => ([], none)
  | i, req :: reqs =>
    match groupFromReq req (a.existingGroup req) (draw.group i) (draw.rule i) with
    | .error msg => ([], some msg)
    | .ok g => ((a.buildGroups draw (i + 1) reqs).1.cons g, (a.buildGroups draw (i + 1) reqs).2)

/-- `maybe_save`. -/
def maybeSave (a : App κ) (save : Bool) : App κ := if save then a.save else a

/-- The end of the handlers that change rules in place: the edited entry `l` is republished and,
when its ruleset is enabled, synced. -/
def syncAfterEdit (k : Kernel κ) (a : App κ) (i : Nat) (l : Live κ) (save : Bool)
    (body : Option Json) : App κ × Reply :=
  match l.sync k with
  | (l, some e) => ((a.modify i fun _ => l).republish, .failed e)
  | (l, none) => ((a.modify i fun _ => l).republish.maybeSave save, .ok body)

/-! ## Handlers -/

/-- `resolve_group`. -/
def resolveGroup (a : App κ) (groupID : Bytes) : Except Reply (Nat × Live κ) :=
  match Id.parse groupID with
  | none => .error (.refused 400 (str "invalid group id"))
  | some id =>
    match a.findGroupById id with
    | none => .error (.refused 404 (str "group not exist"))
    | some i =>
      match a.groups.items[i]? with
      | none => .error (.refused 404 (str "group not exist"))
      | some l => .ok (i, l)

/-- `resolve_rule`. -/
def resolveRule (g : Group) (ruleID : Bytes) : Except Reply (Nat × Rule) :=
  match Id.parse ruleID with
  | none => .error (.refused 400 (str "invalid rule id"))
  | some id =>
    match g.rules.items.findIdx? (fun r => r.id = id) with
    | none => .error (.refused 404 (str "rule not exist"))
    | some j =>
      match g.rules.items[j]? with
      | none => .error (.refused 404 (str "rule not exist"))
      | some r => .ok (j, r)

/-- `handle_put_groups`. -/
def handlePutGroups (k : Kernel κ) (draw : Draw) (a : App κ) (body : Option Json) (save : Bool) :
    App κ × Reply :=
  match body with
  | none => (a, .refused 400 (str "failed to parse request"))
  | some json =>
    match json.getArray "groups" with
    | none => (a, .refused 400 (str "no groups in request"))
    | some reqs =>
      let a := a.disableAll k
      match a.buildGroups draw 0 reqs with
      | (built, some msg) => (a.log (built.flatMap builtStores), .refused 400 msg)
      | (built, none) =>
        match (a.log (built.flatMap builtStores)).clearGroups.addGroups k built with
        | (a, some e) => (a, e.reply)
        | (a, none) =>
          (a.maybeSave save,
            .ok (some (.obj [(str "groups", .arr (built.map fun g => groupToJson g true))])))

/-- `handle_create_group`. -/
def handleCreateGroup (k : Kernel κ) (draw : Draw) (a : App κ) (body : Option Json) (save : Bool) :
    App κ × Reply :=
  match body with
  | none => (a, .refused 400 (str "failed to parse request"))
  | some json =>
    match groupFromReq json none (draw.group 0) (draw.rule 0) with
    | .error msg => (a, .refused 400 msg)
    | .ok g =>
      match (a.log (builtStores g)).addGroup k g with
      | (a, some e) => (a, e.reply)
      | (a, none) => (a.maybeSave save, .ok (some (groupToJson g true)))

/-- The end of `handle_put_group`: the group is exchanged and, if it was enabled, brought up
again. -/
def replaceGroup (k : Kernel κ) (a : App κ) (i : Nat) (l : Live κ) (wasEnabled save : Bool) :
    App κ × Reply :=
  if wasEnabled then
    match l.start k with
    | (l, some e) => ((a.modify i fun _ => l).republish, .failed e)
    | (l, none) =>
      ((a.modify i fun _ => l).republish.maybeSave save, .ok (some (groupToJson l.group true)))
  else
    ((a.modify i fun _ => l).republish.maybeSave save, .ok (some (groupToJson l.group true)))

/-- `handle_put_group`. -/
def handlePutGroup (k : Kernel κ) (draw : Draw) (a : App κ) (groupID : Bytes) (body : Option Json)
    (save : Bool) : App κ × Reply :=
  match a.resolveGroup groupID with
  | .error r => (a, r)
  | .ok (i, l) =>
    match body with
    | none => (a, .refused 400 (str "failed to parse request"))
    | some json =>
      match l.disable k with
      | (l', some e) => (a.modify i fun _ => l', .failed e)
      | (l', none) =>
        let a := a.modify i fun _ => l'
        match groupFromReq json (some l'.group) (draw.group 0) (draw.rule 0) with
        | .error msg => (a, .refused 400 msg)
        | .ok built =>
          (a.log (builtStores built)).replaceGroup k i
            { l' with group := groupMoveInto l'.group built } l.enabled save

/-- `handle_delete_group`. -/
def handleDeleteGroup (k : Kernel κ) (a : App κ) (groupID : Bytes) (save : Bool) : App κ × Reply :=
  match a.resolveGroup groupID with
  | .error r => (a, r)
  | .ok (i, l) =>
    match l.disable k with
    | (l, some e) => (a.modify i fun _ => l, .failed e)
    | (_, none) => ((a.removeGroupByIndex i).maybeSave save, .ok none)

/-- The loop of `handle_put_rules`. -/
def rulesFromReqStrict (existing : List Rule) (draw : Nat → Id) :
    Nat → List Json → Except Err (List Rule)
  | _, [] => .ok []
  | j, req :: reqs =>
    match ruleFromReqStrict req existing (draw j) with
    | .error e => .error e
    | .ok r => (rulesFromReqStrict existing draw (j + 1) reqs).map (r :: ·)

/-- `handle_put_rules`. -/
def handlePutRules (k : Kernel κ) (draw : Draw) (a : App κ) (groupID : Bytes) (body : Option Json)
    (save : Bool) : App κ × Reply :=
  match a.resolveGroup groupID with
  | .error r => (a, r)
  | .ok (i, l) =>
    match body with
    | none => (a, .refused 400 (str "failed to parse request"))
    | some json =>
      match json.getArray "rules" with
      | none => (a, .refused 400 (str "no rules in request"))
      | some reqs =>
        match rulesFromReqStrict l.group.rules.items (draw.rule 0) 0 reqs with
        | .error .noent => (a, .refused 404 (str "rule not found"))
        | .error _ => (a, .refused 400 (str "invalid rule"))
        | .ok rules =>
          let l := { l with group := { l.group with rules := .exact rules } }
          a.syncAfterEdit k i l save (some (wrapRules rules))

/-- `handle_create_rule`. -/
def handleCreateRule (k : Kernel κ) (draw : Draw) (a : App κ) (groupID : Bytes)
    (body : Option Json) (save : Bool) : App κ × Reply :=
  match a.resolveGroup groupID with
  | .error r => (a, r)
  | .ok (i, l) =>
    match body with
    | none => (a, .refused 400 (str "failed to parse request"))
    | some json =>
      let r := ruleFromReq json l.group.rules.items (draw.rule 0 0)
      let l' := { l with group := { l.group with rules := l.group.rules.push r } }
      (a.log [l.group.rules.store]).syncAfterEdit k i l' save (some (ruleToJson r))

/-- `handle_put_rule`. -/
def handlePutRule (k : Kernel κ) (a : App κ) (groupID ruleID : Bytes) (body : Option Json)
    (save : Bool) : App κ × Reply :=
  match a.resolveGroup groupID with
  | .error r => (a, r)
  | .ok (i, l) =>
    match resolveRule l.group ruleID with
    | .error r => (a, r)
    | .ok (j, r) =>
      match body with
      | none => (a, .refused 400 (str "failed to parse request"))
      | some json =>
        let r := fillRuleFields r json
        let rules := l.group.rules.mapItems fun rs => rs.set j r
        let l := { l with group := { l.group with rules := rules } }
        a.syncAfterEdit k i l save (some (ruleToJson r))

/-- `handle_delete_rule`. -/
def handleDeleteRule (k : Kernel κ) (a : App κ) (groupID ruleID : Bytes) (save : Bool) :
    App κ × Reply :=
  match a.resolveGroup groupID with
  | .error r => (a, r)
  | .ok (i, l) =>
    match resolveRule l.group ruleID with
    | .error r => (a, r)
    | .ok (j, _) =>
      let l := { l with group := { l.group with rules := l.group.rules.eraseIdx j } }
      a.syncAfterEdit k i l save none

/-- `handle_get_groups`. -/
def handleGetGroups (a : App κ) (withRules : Bool) : Reply :=
  .ok (some (.obj [(str "groups", .arr (a.configGroups.map fun g => groupToJson g withRules))]))

/-- `handle_get_group`. -/
def handleGetGroup (a : App κ) (groupID : Bytes) (withRules : Bool) : Reply :=
  match a.resolveGroup groupID with
  | .error r => r
  | .ok (_, l) => .ok (some (groupToJson l.group withRules))

/-- `handle_get_rules`. -/
def handleGetRules (a : App κ) (groupID : Bytes) : Reply :=
  match a.resolveGroup groupID with
  | .error r => r
  | .ok (_, l) => .ok (some (wrapRules l.group.rules.items))

/-- `handle_get_rule`. -/
def handleGetRule (a : App κ) (groupID ruleID : Bytes) : Reply :=
  match a.resolveGroup groupID with
  | .error r => r
  | .ok (_, l) =>
    match resolveRule l.group ruleID with
    | .error r => r
    | .ok (_, r) => .ok (some (ruleToJson r))

/-- The routes of `mt_groups_register_routes`. -/
def handle (k : Kernel κ) (draw : Draw) (a : App κ) : Request → App κ × Reply
  | .putGroups body save => a.handlePutGroups k draw body save
  | .createGroup body save => a.handleCreateGroup k draw body save
  | .putGroup groupID body save => a.handlePutGroup k draw groupID body save
  | .deleteGroup groupID save => a.handleDeleteGroup k groupID save
  | .putRules groupID body save => a.handlePutRules k draw groupID body save
  | .createRule groupID body save => a.handleCreateRule k draw groupID body save
  | .putRule groupID ruleID body save => a.handlePutRule k groupID ruleID body save
  | .deleteRule groupID ruleID save => a.handleDeleteRule k groupID ruleID save
  | .getGroups withRules => (a, a.handleGetGroups withRules)
  | .getGroup groupID withRules => (a, a.handleGetGroup groupID withRules)
  | .getRules groupID => (a, a.handleGetRules groupID)
  | .getRule groupID ruleID => (a, a.handleGetRule groupID ruleID)

/-! ## What the parts return -/

theorem resolveGroup_ok {a : App κ} {groupID : Bytes} {i : Nat} {l : Live κ}
    (h : a.resolveGroup groupID = .ok (i, l)) : a.groups.items[i]? = some l := by
  unfold resolveGroup at h
  split at h
  · cases h
  · split at h
    · cases h
    · split at h
      · cases h
      · next l' hl =>
        cases h
        exact hl

theorem resolveRule_ok {g : Group} {ruleID : Bytes} {j : Nat} {r : Rule}
    (h : resolveRule g ruleID = .ok (j, r)) : g.rules.items[j]? = some r := by
  unfold resolveRule at h
  split at h
  · cases h
  · split at h
    · cases h
    · split at h
      · cases h
      · next r' hr =>
        cases h
        exact hr

end App

theorem rules_of_groupFromReq {req : Json} {existing : Option Group} {drawGroup : Id}
    {drawRule : Nat → Id} {g : Group}
    (h : groupFromReq req existing drawGroup drawRule = .ok g) :
    ∃ rules, groupRulesFromReq req existing drawRule = .ok rules ∧
      g.rules = CArray.empty.pushAll rules := by
  unfold groupFromReq at h
  split at h
  · cases h
  · split at h
    · cases h
    · split at h
      · cases h
      · next rules hr =>
        cases h
        exact ⟨rules, hr, rfl⟩

theorem App.forall_buildGroups {P : Group → Prop} {a : App κ} {d : Draw}
    (h : ∀ i req g, groupFromReq req (a.existingGroup req) (d.group i) (d.rule i) = .ok g → P g)
    (reqs : List Json) (i : Nat) : ∀ g ∈ (a.buildGroups d i reqs).1, P g := by
  induction reqs generalizing i with
  | nil => exact fun g hg => absurd hg List.not_mem_nil
  | cons req reqs ih =>
    unfold App.buildGroups
    split
    · exact fun g hg => absurd hg List.not_mem_nil
    · next g hg =>
      intro g' hg'
      rcases List.mem_cons.mp hg' with rfl | hg'
      · exact h i req g' hg
      · exact ih (i + 1) g' hg'

/-! ## A kernel and draws for concrete runs -/

def Kernel.willing : Kernel Unit := ⟨fun _ => .ok (), fun _ _ => ((), none), fun _ _ => (none, none)⟩

def Draw.counting (b : UInt8) : Draw where
  group i := ⟨b, 0, 0, UInt8.ofNat i⟩
  rule i j := ⟨b, 1, UInt8.ofNat i, UInt8.ofNat j⟩

end MagiTrickle.Api
