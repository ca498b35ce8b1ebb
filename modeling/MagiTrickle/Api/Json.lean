import MagiTrickle.Config.Ids

/-!
# Request bodies and responses

`Json` is a document as cJSON parses it; the strings are the C strings the
handlers read, and a number is the integer its conversion to an integer type
gives. A body that is empty or does not parse is `none`.

A handler answers with a document, refuses what the client sent, or reports an
error of the kernel. The source writes the last two alike; `Reply` keeps them
apart.
-/

namespace MagiTrickle.Api

open MagiTrickle.Config

/-- A `cJSON` item. -/
inductive Json where
  | null
  | bool (b : Bool)
  | num (v : Int)
  | str (s : Bytes)
  | arr (items : List Json)
  | obj (fields : List (Bytes × Json))

namespace Json

/-- `cJSON_GetObjectItemCaseSensitive`: the first field of that name. -/
def getItem (j : Json) (key : String) : Option Json :=
  match j with
  | .obj fields => (fields.find? fun f => f.1 = MagiTrickle.str key).map Prod.snd
  | _ => none

/-- `parse_optional_id`: `none` for a malformed id, `some none` for an absent one. -/
def parseOptionalId (j : Json) (key : String) : Option (Option Id) :=
  match j.getItem key with
  | none => some none
  | some .null => some none
  | some (.str s) => (Id.parse s).map some
  | some _ => none

/-- `get_string`. -/
def getString (j : Json) (key : String) : Bytes :=
  match j.getItem key with
  | some (.str s) => s
  | _ => []

/-- `get_optional_bool`. -/
def getOptionalBool (j : Json) (key : String) : Option Bool :=
  match j.getItem key with
  | some (.bool b) => some b
  | _ => none

/-- A plain `bool` field: whatever is not `true` is false. -/
def getBool (j : Json) (key : String) : Bool := (j.getOptionalBool key).getD false

/-- A number field cast to `uint32_t`. -/
def getUint32 (j : Json) (key : String) : Option Nat :=
  match j.getItem key with
  | some (.num v) => some (v % 2 ^ 32).toNat
  | _ => none

def getArray (j : Json) (key : String) : Option (List Json) :=
  match j.getItem key with
  | some (.arr items) => some items
  | _ => none

end Json

inductive Reply where
  | ok (body : Option Json)
  | refused (status : Nat) (msg : Bytes)
  | failed (err : Err)

namespace Reply

def status : Reply → Nat
  | .ok _ => 200
  | .refused status _ => status
  | .failed _ => 500

/-- The document sent: `mt_http_res_write_error` wraps the message. -/
def body : Reply → Option Json
  | .ok body => body
  | .refused _ msg => some (.obj [(str "error", .str msg)])
  | .failed err => some (.obj [(str "error", .str err.str)])

/-- The client is told that its request is at fault. -/
def IsRefusal : Reply → Prop
  | .refused _ _ => True
  | _ => False

instance : (r : Reply) → Decidable r.IsRefusal
  | .ok _ => isFalse id
  | .refused _ _ => isTrue trivial
  | .failed _ => isFalse id

end Reply

/-! ## Models to documents -/

/-- `rule_to_json`. -/
def ruleToJson (r : Rule) : Json :=
  .obj [(str "id", .str r.id.format), (str "name", .str r.name), (str "type", .str r.type),
    (str "rule", .str r.rule), (str "enable", .bool r.enable)]

/-- `rules_to_json_array`. -/
def rulesToJsonArray (rules : List Rule) : Json := .arr (rules.map ruleToJson)

/-- `wrap_rules`. -/
def wrapRules (rules : List Rule) : Json := .obj [(str "rules", rulesToJsonArray rules)]

/-- `group_to_json`. -/
def groupToJson (g : Group) (withRules : Bool) : Json :=
  .obj ([(str "id", .str g.id.format), (str "name", .str g.name), (str "color", .str g.color),
    (str "interface", .str g.iface), (str "enable", .bool g.enable)] ++
    if withRules then [(str "rules", rulesToJsonArray g.rules.items)] else [])

/-- `sub_rule_to_json`. -/
def subRuleToJson (r : SubRule) : Json :=
  .obj [(str "id", .str r.id.format), (str "rule", .str r.rule), (str "type", .str r.type),
    (str "enable", .bool r.enable)]

/-- `subscription_to_json`. -/
def subscriptionToJson (s : Subscription) : Json :=
  .obj [(str "id", .str s.id.format), (str "name", .str s.name), (str "interface", .str s.iface),
    (str "enable", .bool s.enable), (str "url", .str s.url), (str "interval", .num s.interval),
    (str "lastUpdate", .num s.lastUpdate), (str "rules", .arr (s.rules.items.map subRuleToJson))]

/-- `status_ok_json`. -/
def statusOkJson : Json := .obj [(str "status", .str (str "ok"))]

end MagiTrickle.Api
