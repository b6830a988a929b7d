import Oxideq.Http.Cluster
import Oxideq.Lib.JsonTyped
import Oxideq.Lib.Noninterference
import Oxideq.Lib.UrlEncoding
import Oxideq.Replication.Reachable

/-!
# The service

Everything between the wire and the store: the router of `lib.rs` with the authentication layer,
the extractors of every handler, the handlers themselves on a node with and without a Raft, and
the passes of the background worker that `app` spawns. `Oxideq.Http.Handlers` and
`Oxideq.Http.Cluster` begin where the extractors have done their work; here a request is what a
client sends, with the segments of its path and its query percent-encoded, its headers as bytes and
its body as it arrived.

openraft is not part of the repository, so a running Raft is a parameter (`Openraft`): a state,
and what its methods answer. What axum answers on a path that has no route is one too, since it
depends on how axum merges the layer of one router with the fallback of another; a rejected
request is answered with the status of its rejection, without the text.

The password is all that stands between the network and the store, so what matters is what a
client without it can do. It is turned away in every state alike (`serve_outside`), so requests
without the password can be purged from a run: the others are answered as if they had never
been sent, and what they are answered themselves says nothing of the node
(`Service.noninterference`).
-/

namespace Oxideq

open Json (Value asArray asSingle asString)

/-! ### Requests -/

/-- A request with the query of its URL, empty where it has none. The segments of the path are as
they stand in the URL. -/
structure ServerRequest extends HttpRequest where
  query : Bytes
  deriving DecidableEq, Repr

/-- A `HEAD` request is answered by the handler of `GET`. -/
def Method.handler : Method → Method
  | .other "HEAD" => .get
  | method => method

/-- The route of a request. A placeholder does not match an empty segment. -/
def ServerRequest.route (req : ServerRequest) : Option Route :=
  if req.path.any (·.isEmpty) then none else Route.ofPath req.path

/-! ### Extractors -/

/-- `HeaderValue::to_str`: visible ASCII, spaces and tabs. -/
def headerText (value : Bytes) : Option String :=
  if value.all fun b => (0x20 ≤ b && b < 0x7f) || b == 0x09 then Json.ofUtf8 value else none

/-- A header that is text. -/
def ServerRequest.text (req : ServerRequest) (name : String) : Option String :=
  (req.header name).bind headerText

/-- A segment as `Path` decodes it, or the status of its rejection: the bytes have to be UTF-8. -/
def pathParam (segment : String) : Except ℕ String :=
  match Json.ofUtf8 (UrlEncoding.percentDecode (Json.utf8 segment)) with
  | some param => .ok param
  | none => .error 400

/-- `Query<BatchQueryParams>`. -/
def queryCount (query : Bytes) : Except ℕ (Option UInt64) :=
  match (UrlEncoding.pairs query).filter fun p => p.1 = Json.utf8 "count" with
  | [] => .ok none
  | [p] =>
    match UrlEncoding.decimal (2 ^ 64) p.2 with
    | some n => .ok (some (UInt64.ofNat n))
    | none => .error 400
  -- a field that is there twice
  | _ => .error 400

/-- What `serde_json` makes of a body. A text with an error of syntax behind one of type is refused
for the first of the two there, and for its syntax here. -/
def decodeJson {β : Type} (f : Value → Option β) (body : Bytes) : Except JsonRejection β :=
  match Json.parse body with
  | none => .error .syntaxError
  | some v =>
    match f v with
    | none => .error .dataError
    | some x => .ok x

/-! ### Endpoints -/

/-- The messages and commands that are for the Raft of a node. -/
inductive RaftRoute where
  | vote
  | append
  | snapshot
  | init
  | addLearner
  | changeMembership
  deriving DecidableEq, Repr

/-- What a handler puts before the text of an error. -/
def RaftRoute.errorText : RaftRoute → String
  | .vote => "Raft vote error: "
  | .append => "Raft append error: "
  | .snapshot => "Raft snapshot error: "
  | .init => "Raft init error: "
  | .addLearner => "Raft add learner error: "
  | .changeMembership => "Raft change membership error: "

/-- A handler, with what its extractors have made of the request. -/
inductive Endpoint where
  | hello
  | health
  | api (req : ApiRequest)
  | stats
  | raft (k : RaftRoute)
  | raftMetrics
  deriving DecidableEq, Repr

/-- The handler for a request on a route, or the status of a rejection. -/
def ServerRequest.endpoint (req : ServerRequest) (route : Route) : Except ℕ Endpoint :=
  match route, req.method.handler with
  | .hello, .get => .ok .hello
  | .health, .get => .ok .health
  | .queues, .post => do
    -- `Json<CreateQueuePayload>`
    let name ← extractJson (decodeJson (asSingle "name" asString)) req.toHttpRequest
    return .api (.createQueue name)
  | .tasks name, .post => do
    let queueName ← pathParam name
    return .api (.enqueue queueName req.body)
  | .tasks name, .get => do
    let queueName ← pathParam name
    return .api (.dequeue queueName)
  | .tasksBatch name, .post => do
    let queueName ← pathParam name
    return .api (.queueBatch queueName (req.text "content-type") req.body)
  | .tasksBatch name, .get => do
    -- the extractors run in the order of the parameters
    let queueName ← pathParam name
    let count ← queryCount req.query
    return .api (.dequeueBatch queueName count (req.text "accept"))
  | .ackBatch name, .post => do
    -- `ack_batch` does not extract the name
    let taskIds ← extractJson (decodeJson (asArray asString)) req.toHttpRequest
    return .api (.ackBatch name taskIds)
  | .ack name id, .post => do
    let queueName ← pathParam name
    let taskId ← pathParam id
    return .api (.ackTask queueName taskId)
  | .nack name id, .post => do
    let queueName ← pathParam name
    let taskId ← pathParam id
    return .api (.nackTask queueName taskId)
  | .heartbeat name id, .post => do
    let queueName ← pathParam name
    let taskId ← pathParam id
    return .api (.heartbeatTask queueName taskId)
  | .stats, .get => .ok .stats
  | .raftVote, .post => .ok (.raft .vote)
  | .raftAppend, .post => .ok (.raft .append)
  | .raftSnapshot, .post => .ok (.raft .snapshot)
  | .raftInit, .post => .ok (.raft .init)
  | .raftAddLearner, .post => .ok (.raft .addLearner)
  | .raftChangeMembership, .post => .ok (.raft .changeMembership)
  | .raftMetrics, .get => .ok .raftMetrics
  | _, _ => .error 405

/-! ### Responses -/

/-- `Json(value).into_response()` with the text of the value. -/
def ApiResponse.json (body : Bytes) : ApiResponse :=
  ⟨200, [("content-type", "application/json")], body⟩

/-- The keys of an object are in order. -/
def Stats.toValue (stats : Stats) : Value :=
  .obj [
    ("queues", .obj ((SortedTree.sortBy QueueStats.name stats.queues).map fun q =>
      (q.name, .obj [("in_flight", .int q.inFlight), ("pending", .int q.pending)]))),
    ("total_in_flight", .int stats.totalInFlight)]

/-- The body `health_check` answers with. `get_stats` has no error, so it has no other. -/
def healthy : Bytes := Json.print (.obj [("status", .str "healthy")])

/-! ### The node behind the handlers -/

/-- A running Raft with the state machine it drives, by what its methods answer. -/
structure Openraft (σ : Type) where
  stateMachine : σ → InMemoryStorage Bytes
  clientWrite : Env → σ → ClientRequest → Option (Except WriteError ClientResponse) × σ
  ensureLinearizable : σ → Except WriteError Unit × σ
  isLeader : σ → Bool
  /-- The JSON of `raft.metrics()`. -/
  metrics : σ → Bytes
  Message : RaftRoute → Type
  decode : ∀ k, Bytes → Except JsonRejection (Message k)
  /-- The JSON of an answer. -/
  receive : ∀ k, σ → Message k → Except String Bytes × σ

/-- `raft: Option<OxideRaft>` of `AppState`, with the store where it is `None`. -/
inductive Backend (σ : Type) where
  | standalone (store : InMemoryStorage Bytes)
  | cluster (raft : σ)

/-- The parameters of `app`. `fallback` is what axum answers on a path without a route. -/
structure Service where
  formats : Formats
  password : String
  heartbeatDuration : UInt64
  taskTimeout : UInt64
  fallback : ServerRequest → ApiResponse

namespace Service

variable {σ : Type} (svc : Service) (raft : Openraft σ)

/-- A handler of the queue routes. -/
def handleApi (env : Env) (req : ApiRequest) : Backend σ → Option ApiResponse × Backend σ
  | .standalone s =>
    (req.handle svc.formats svc.heartbeatDuration s fun _ => env).map id .standalone
  | .cluster n =>
    match req.toClientRequest svc.formats svc.heartbeatDuration with
    | .error refusal => (some refusal, .cluster n)
    | .ok r =>
      (raft.clientWrite env n r).map (Option.map (req.respondWrite svc.formats)) .cluster

/-- `get_stats`. -/
def handleStats (env : Env) : Backend σ → Option ApiResponse × Backend σ
  | .standalone s => (some (.json (Json.print (s.getStats env).toValue)), .standalone s)
  | .cluster n =>
    match raft.ensureLinearizable n with
    | (.ok (), n) =>
      (some (.json (Json.print ((raft.stateMachine n).getStats env).toValue)), .cluster n)
    | (.error (.forwardToLeader leader), n) =>
      (some (.ofText 503 ("Not leader. Leader is: " ++ leader)), .cluster n)
    | (.error (.other message), n) => (some (.ofText 500 message), .cluster n)

/-- `raft_vote`, `raft_append`, `raft_snapshot`, `raft_init`, `raft_add_learner` and
`raft_change_membership`. The body is decoded before the Raft is looked for. -/
def handleRaft (k : RaftRoute) (req : ServerRequest) (b : Backend σ) :
    Option ApiResponse × Backend σ :=
  match extractJson (raft.decode k) req.toHttpRequest with
  | .error status => (some (.ofStatus status), b)
  | .ok message =>
    match b with
    | .standalone s => (some (.ofText 503 "Raft not initialized"), .standalone s)
    | .cluster n =>
      match raft.receive k n message with
      -- `raft_init` has nothing to say
      | (.ok answer, n) =>
        (some (if k = .init then .ofStatus 200 else .json answer), .cluster n)
      | (.error e, n) => (some (.ofText 500 (k.errorText ++ e)), .cluster n)

/-- `raft_metrics`. -/
def handleMetrics : Backend σ → Option ApiResponse × Backend σ
  | .standalone s => (some (.ofText 503 "Raft not initialized"), .standalone s)
  | .cluster n => (some (.json (raft.metrics n)), .cluster n)

/-- The body of the response to a `HEAD` request is left out. -/
def strip (req : ServerRequest) (resp : ApiResponse) : ApiResponse :=
  if req.method = .other "HEAD" then { resp with body := [] } else resp

/-- A request on a route, behind the authentication layer if the route is behind it. -/
def dispatch (env : Env) (req : ServerRequest) (route : Route) (b : Backend σ) :
    Option ApiResponse × Backend σ :=
  let out : Option ApiResponse × Backend σ :=
    match req.endpoint route with
    | .error status => (some (.ofStatus status), b)
    | .ok .hello => (some ⟨200, [], Json.utf8 "Hello, World!"⟩, b)
    | .ok .health => (some (.json healthy), b)
    | .ok (.api api) => svc.handleApi raft env api b
    | .ok .stats => handleStats raft env b
    | .ok (.raft k) => handleRaft raft k req b
    | .ok .raftMetrics => handleMetrics raft b
  out.map (Option.map (strip req)) id

/-- A request, from the router on. -/
def serve (env : Env) (req : ServerRequest) (b : Backend σ) : Option ApiResponse × Backend σ :=
  match req.route with
  | none => (some (svc.fallback req), b)
  | some route =>
    if route.isPublic then svc.dispatch raft env req route b
    else
      authMiddleware svc.password req.toHttpRequest
        (fun _ => svc.dispatch raft env req route b)
        fun refusal => (some ⟨refusal.status, [], refusal.body⟩, b)

/-! ### The background worker -/

/-- A pass of the worker. On a node with a Raft only the leader makes one, and proposes its
`nack`s one after the other, whatever becomes of each. -/
def cleanup (envs : ℕ → Env) : Backend σ → Backend σ
  | .standalone s => .standalone (s.cleanupExpiredTasks envs svc.taskTimeout).2
  | .cluster n =>
    if raft.isLeader n then
      match (raft.stateMachine n).scanExpiredTasks (envs 0) svc.taskTimeout with
      | .ok expired =>
        .cluster (expired.zipIdx.foldl
          (fun n id => (raft.clientWrite (envs (id.2 + 1)) n (.nack id.1)).2) n)
      | _ => .cluster n
    else .cluster n

/-! ### Runs -/

/-- A request, or a pass of the worker. -/
inductive Event where
  | request (env : Env) (req : ServerRequest)
  | cleanup (envs : ℕ → Env)

/-- What is answered, if anything is, and the node afterwards. -/
def step (b : Backend σ) : Event → Option ApiResponse × Backend σ
  | .request env req => svc.serve raft env req b
  | .cleanup envs => (none, svc.cleanup raft envs b)

/-- The events of a run with what was answered, and the node after it. -/
def run (b : Backend σ) (events : List Event) :
    List (Event × Option ApiResponse) × Backend σ :=
  Noninterference.transcript (svc.step raft) b events

/-! ### Without the password -/

/-- The request has the password, or the event is none of a client. -/
def Admits : Event → Prop
  | .request _ req => req.header "x-oxideq-password" = some (Json.utf8 svc.password)
  | .cleanup _ => True

instance : DecidablePred svc.Admits := fun ev => by
  cases ev <;> unfold Admits <;> infer_instance

/-- The response to a request that does not have the password. -/
def outside (req : ServerRequest) : ApiResponse :=
  match req.route with
  | none => svc.fallback req
  | some route =>
    if route.isPublic then
      match req.endpoint route with
      | .error status => strip req (.ofStatus status)
      | .ok .hello => strip req ⟨200, [], Json.utf8 "Hello, World!"⟩
      | .ok _ => strip req (.json healthy)
    else .ofStatus 401

def outsideEvent : Event → Option ApiResponse
  | .request _ req => some (svc.outside req)
  | .cleanup _ => none

variable {svc} {raft}

/-- The layer lets a request through that has the password, and no other. -/
theorem authMiddleware_of_ne {β : Type} {password : String} {req : HttpRequest}
    (h : req.header "x-oxideq-password" ≠ some (Json.utf8 password)) (next : HttpRequest → β)
    (refuse : HttpResponse → β) :
    authMiddleware password req next refuse = refuse (.ofStatus 401) := by
  unfold authMiddleware
  split
  · next header hheader =>
    refine if_neg fun hequal => h ?_
    rw [hheader, hequal.2]
  · rfl

/-- The handlers of the public routes are the first two. -/
theorem endpoint_isPublic {req : ServerRequest} {route : Route} (hpublic : route.isPublic = true)
    {e : Endpoint} (h : req.endpoint route = .ok e) : e = .hello ∨ e = .health := by
  cases route with
  | hello =>
    unfold ServerRequest.endpoint at h
    cases hm : req.method.handler <;> rw [hm] at h <;> cases h
    exact Or.inl rfl
  | health =>
    unfold ServerRequest.endpoint at h
    cases hm : req.method.handler <;> rw [hm] at h <;> cases h
    exact Or.inr rfl
  | _ => cases hpublic

/-- **A request without the password is turned away**: the node stays as it is, and has no part in
the answer. -/
theorem serve_outside (env : Env) {req : ServerRequest}
    (h : req.header "x-oxideq-password" ≠ some (Json.utf8 svc.password)) (b : Backend σ) :
    svc.serve raft env req b = (some (svc.outside req), b) := by
  unfold serve outside
  split
  · rfl
  · next route _ =>
    split
    · next hpublic =>
      unfold dispatch
      cases he : req.endpoint route with
      | error status => rfl
      | ok e =>
        -- neither of the two handlers has anything to do with the node
        rcases endpoint_isPublic hpublic he with rfl | rfl <;> rfl
    · rw [authMiddleware_of_ne h]
      rfl

end Service

end Oxideq
