import MagiTrickle.Http.Request

/-!
# Routing (`api/httpd.c`, `api/auth.c`)

The route table, the matching of a path against it, and the middleware that asks
for a token. A handler works on the state `σ` of the application and on the
response it writes. What runs is recorded: the calls of `mt_auth_verify_token`
and of the registered handlers, in order (`Call`).
-/

namespace MagiTrickle.Http

def maxSegments : Nat := 8
def maxParams : Nat := 4
def maxResHeaders : Nat := 8

/-! ## Responses -/

/-- `mt_http_res`. -/
structure Res where
  status : Nat
  headers : List Kv
  body : Bytes
  responded : Bool
  deriving DecidableEq, Repr

namespace Res

/-- The response a handler starts with. -/
def start : Res := ⟨200, [], [], false⟩

/-- `mt_http_res_set_header`. -/
def setHeader (res : Res) (name value : Bytes) : Res :=
  if maxResHeaders ≤ res.headers.length then res
  else { res with headers := res.headers ++ [⟨name.take 63, value.take 511⟩] }

/-- `mt_http_res_write`. -/
def write (res : Res) (status : Nat) (contentType : Option Bytes) (data : Bytes) : Res :=
  let res := { res with body := data, status }
  let res := match contentType with
    | some t => res.setHeader (str "Content-Type") t
    | none => res
  { res with responded := true }

/-- `mt_http_res_write_error`, for a message that needs no escapes. -/
def writeError (res : Res) (status : Nat) (msg : String) : Res :=
  res.write status (some (str "application/json; charset=utf-8"))
    (str "\x7b\"error\":\"" ++ str msg ++ str "\"\x7d")

end Res

/-! ## Routes -/

/-- `mt_http_handler_fn`. -/
abbrev Handler (σ : Type) := σ → Req → Res → σ × Res

/-- `route_t`. -/
structure Route (σ : Type) where
  method : Bytes
  pattern : Bytes
  fn : Handler σ

/-- What is registered on an `mt_httpd_t`. -/
structure Site (σ : Type) where
  routes : List (Route σ)
  /-- `false` where it has answered itself. -/
  middleware : Option (σ → Req → Res → σ × Res × Bool)
  notFound : Option (Handler σ)

variable {σ : Type}

/-- A segment of a pattern in braces. -/
def isParam (seg : Bytes) : Bool :=
  2 ≤ seg.length ∧ seg.head? = some 123 ∧ seg.getLast? = some 125

/-- The loop of `match_route` over the segments of a pattern and of the path. -/
def matchSegs : List (Bytes × Bytes) → List Kv → Option (List Kv)
  | [], params => some params
  | (pat, seg) :: rest, params =>
    if isParam pat then
      if maxParams ≤ params.length then none
      else matchSegs rest (params ++ [⟨(pat.drop 1).dropLast.take 63, seg.take 511⟩])
    else if pat = seg then matchSegs rest params
    else none

/-- The body of the loop of `match_route` over the routes. -/
def Route.params? (r : Route σ) (method path : Bytes) : Option (List Kv) :=
  let pat := splitSegments r.pattern maxSegments
  let segs := splitSegments path maxSegments
  if r.method = method ∧ pat.length = segs.length then matchSegs (pat.zip segs) [] else none

/-- `match_route`: the first route that fits, with the parameters. -/
def matchRoute (routes : List (Route σ)) (method path : Bytes) : Option (Route σ × List Kv) :=
  routes.findSome? fun r => (r.params? method path).map fun params => (r, params)

/-- The part of `handle_complete_request` that makes the response. -/
def Site.answer (site : Site σ) (app : σ) (req : Req) : σ × Res :=
  let (app, res, proceed) := match site.middleware with
    | some f => f app req .start
    | none => (app, .start, true)
  let (app, res) :=
    if proceed then
      match matchRoute site.routes req.method req.path with
      | some (r, params) => r.fn app { req with params } res
      | none =>
        match site.notFound with
        | some f => f app req res
        | none => (app, res.writeError 404 "not found")
    else (app, res)
  (app, if res.responded then res else res.writeError 500 "handler produced no response")

/-! ## The API -/

inductive Call where
  /-- `mt_auth_verify_token` on this token and whether it returned `MT_OK`. -/
  | verifyToken (token : Bytes) (accepted : Bool)
  /-- The handler registered under this pattern, for this request. -/
  | handler (pattern : Bytes) (req : Req)
  deriving DecidableEq, Repr

/-- The state of the application with the calls made so far. -/
structure Logged (σ : Type) where
  app : σ
  calls : List Call

/-- `r->fn(req, &res, r->ud)`, recorded. -/
def logged (pattern : Bytes) (fn : Handler σ) : Handler (Logged σ) := fun s req res =>
  let (app, res) := fn s.app req res
  (⟨app, s.calls ++ [.handler pattern req]⟩, res)

/-- The rest of the daemon as the HTTP server of the web UI sees it. -/
structure Backend (σ : Type) where
  /-- The handler of a route. -/
  handler : Bytes → Bytes → Handler σ
  /-- `mt_auth_verify_token`, which reads the password file and the clock. -/
  verifyToken : σ → Bytes → σ × Bool
  /-- `http_web.auth.enabled`. -/
  authEnabled : Bool
  /-- `mt_static_handler`. -/
  static : Handler σ

/-- The methods and patterns of `mt_groups_register_routes`. -/
def groupRoutes : List (Bytes × Bytes) :=
  [(str "GET", str "/api/v1/groups"), (str "PUT", str "/api/v1/groups"),
    (str "POST", str "/api/v1/groups"), (str "GET", str "/api/v1/groups/\x7bgroupID\x7d"),
    (str "PUT", str "/api/v1/groups/\x7bgroupID\x7d"),
    (str "DELETE", str "/api/v1/groups/\x7bgroupID\x7d"),
    (str "GET", str "/api/v1/groups/\x7bgroupID\x7d/rules"),
    (str "PUT", str "/api/v1/groups/\x7bgroupID\x7d/rules"),
    (str "POST", str "/api/v1/groups/\x7bgroupID\x7d/rules"),
    (str "GET", str "/api/v1/groups/\x7bgroupID\x7d/rules/\x7bruleID\x7d"),
    (str "PUT", str "/api/v1/groups/\x7bgroupID\x7d/rules/\x7bruleID\x7d"),
    (str "DELETE", str "/api/v1/groups/\x7bgroupID\x7d/rules/\x7bruleID\x7d")]

/-- Of `mt_system_register_routes`. -/
def systemRoutes : List (Bytes × Bytes) :=
  [(str "GET", str "/api/v1/system/interfaces"), (str "POST", str "/api/v1/system/config/save"),
    (str "POST", str "/api/v1/system/hooks/netfilterd")]

/-- Of `mt_subs_register_routes`. -/
def subsRoutes : List (Bytes × Bytes) :=
  [(str "GET", str "/api/v1/subscriptions"), (str "PUT", str "/api/v1/subscriptions"),
    (str "POST", str "/api/v1/subscriptions"), (str "GET", str "/api/v1/subscriptions/rules"),
    (str "DELETE", str "/api/v1/subscriptions/\x7bsubscriptionID\x7d"),
    (str "POST", str "/api/v1/subscriptions/\x7bsubscriptionID\x7d/sync")]

/-- The routes in the order of `main`; the table has room for 64. -/
def apiRoutes : List (Bytes × Bytes) :=
  groupRoutes ++ systemRoutes ++ subsRoutes ++
    [(str "GET", str "/api/v1/auth"), (str "POST", str "/api/v1/auth")]

/-- The token in the `Authorization` header of a request. -/
def bearerToken (headers : List Kv) : Option Bytes := do
  let authz ← findHeader headers (str "Authorization")
  let authz := authz.dropWhile fun c => c = space ∨ c = 9
  if str "Bearer " <+: authz then
    let token := authz.drop 7
    if token = [] then none else some token
  else none

/-- `mt_auth_middleware`. -/
def authMiddleware (b : Backend σ) (s : Logged σ) (req : Req) (res : Res) :
    Logged σ × Res × Bool :=
  if ¬ str "/api/" <+: req.path then (s, res, true)
  else if ¬ b.authEnabled ∨ req.path = str "/api/v1/auth" then (s, res, true)
  else
    match bearerToken req.headers with
    | none => (s, res.writeError 401 "Unauthorized", false)
    | some token =>
      let (app, accepted) := b.verifyToken s.app token
      let s := ⟨app, s.calls ++ [.verifyToken token accepted]⟩
      if accepted then (s, res, true) else (s, res.writeError 401 "Unauthorized", false)

/-- The server of the web UI, as `main` sets it up. -/
def tcpSite (b : Backend σ) : Site (Logged σ) where
  routes := apiRoutes.map fun (method, pattern) =>
    ⟨method, pattern, logged pattern (b.handler method pattern)⟩
  middleware := some (authMiddleware b)
  notFound := some fun s req res =>
    let (app, res) := b.static s.app req res
    (⟨app, s.calls⟩, res)

end MagiTrickle.Http
