import Oxideq.Lib.Json
import Oxideq.Storage.Types

/-!
# The HTTP application

The router that `app` in `lib.rs` builds: the route table, the authentication layer around every
route but two, and the three handlers through which Raft messages arrive. The handlers of the
queue routes and of the cluster administration are a parameter (`Rest`); what they answer is not
the concern of this module.

openraft's messages are parameters too: a message has a JSON form and a running Raft answers it.
-/

namespace Oxideq

/-! ### Messages -/

inductive Method where
  | get
  | post
  | other (name : String)
  deriving DecidableEq, Repr

/-- A request as a server sees it: the segments of its path, its headers under their lower-case
names, and its body. -/
structure HttpRequest where
  method : Method
  path : List String
  headers : List (String × Bytes)
  body : Bytes
  deriving DecidableEq, Repr

structure HttpResponse where
  status : ℕ
  body : Bytes
  deriving DecidableEq, Repr

/-- `headers().get(name)`: the first value under the name. -/
def HttpRequest.header (req : HttpRequest) (name : String) : Option Bytes :=
  (req.headers.find? fun h => h.1 = name).map (·.2)

/-- A response with a status and no body. -/
def HttpResponse.ofStatus (status : ℕ) : HttpResponse := ⟨status, []⟩

/-! ### Routes -/

/-- The routes of `app`. -/
inductive Route where
  | hello
  | health
  | queues
  | tasks (name : String)
  | tasksBatch (name : String)
  | ackBatch (name : String)
  | ack (name taskId : String)
  | nack (name taskId : String)
  | heartbeat (name taskId : String)
  | stats
  | raftVote
  | raftAppend
  | raftSnapshot
  | raftInit
  | raftAddLearner
  | raftChangeMembership
  | raftMetrics
  deriving DecidableEq, Repr

namespace Route

/-- The route of a path. A fixed segment is tried before a placeholder. -/
def ofPath : List String → Option Route
  | [] => some .hello
  | ["health"] => some .health
  | ["queues"] => some .queues
  | ["queues", name, "tasks"] => some (.tasks name)
  | ["queues", name, "tasks", "batch"] => some (.tasksBatch name)
  | ["queues", name, "tasks", "ack", "batch"] => some (.ackBatch name)
  | ["queues", name, "tasks", taskId, "ack"] => some (.ack name taskId)
  | ["queues", name, "tasks", taskId, "nack"] => some (.nack name taskId)
  | ["queues", name, "tasks", taskId, "heartbeat"] => some (.heartbeat name taskId)
  | ["stats"] => some .stats
  | ["raft", "vote"] => some .raftVote
  | ["raft", "append"] => some .raftAppend
  | ["raft", "snapshot"] => some .raftSnapshot
  | ["raft", "init"] => some .raftInit
  | ["raft", "add-learner"] => some .raftAddLearner
  | ["raft", "change-membership"] => some .raftChangeMembership
  | ["raft", "metrics"] => some .raftMetrics
  | _ => none

/-- The routes outside the router the authentication layer is put around. -/
def isPublic : Route → Bool
  | .hello => true
  | .health => true
  | _ => false

end Route

/-! ### Raft messages -/

/-- The three messages of the Raft network. -/
inductive RaftRpc where
  | append
  | vote
  | snapshot
  deriving DecidableEq, Repr

/-- Why `axum::Json` refuses a body. -/
inductive JsonRejection where
  | syntaxError
  | dataError
  deriving DecidableEq, Repr

/-- The requests and responses of one message, with their JSON forms. -/
structure Rpc where
  Req : Type
  Resp : Type
  encodeReq : Req → Bytes
  decodeReq : Bytes → Except JsonRejection Req
  encodeResp : Resp → Bytes
  decodeResp : Bytes → Option Resp

/-- A running Raft, by its answers. -/
abbrev Raft (R : RaftRpc → Rpc) := ∀ k, (R k).Req → Except String (R k).Resp

/-- A message handed to a running Raft. -/
abbrev RaftCall (R : RaftRpc → Rpc) := Σ k, (R k).Req

/-- The parts of `AppState` these handlers use. -/
structure AppState (R : RaftRpc → Rpc) where
  password : String
  raft : Option (Raft R)

/-! ### The authentication layer -/

/-- `auth_middleware`: the password has to be in its header, byte for byte. -/
def authMiddleware {β : Type} (password : String) (req : HttpRequest) (next : HttpRequest → β)
    (refuse : HttpResponse → β) : β :=
  match req.header "x-oxideq-password" with
  | some header =>
    -- `ct_eq` compares slices of one length only, so the lengths are compared first
    if header.length = (Json.utf8 password).length ∧ header = Json.utf8 password then next req
    else refuse (.ofStatus 401)
  -- a header that is missing is refused like a wrong one
  | none => refuse (.ofStatus 401)

/-! ### Handlers -/

/-- `DefaultBodyLimit` where no layer sets another one: two megabytes. -/
def defaultBodyLimit : ℕ := 2097152

/-- A letter in lower case. -/
def asciiLower (b : UInt8) : UInt8 := if 0x41 ≤ b ∧ b ≤ 0x5a then b + 0x20 else b

/-- Whether a content type is `application/json` or `application/*+json`, parameters aside. -/
def isJsonContentType (value : Bytes) : Bool :=
  let mime := (value.takeWhile fun b => b ≠ 0x3b ∧ b ≠ 0x20).map asciiLower
  let subtype := mime.drop (Json.utf8 "application/").length
  (Json.utf8 "application/").isPrefixOf mime &&
    (subtype = Json.utf8 "json" || (Json.utf8 "+json").isSuffixOf subtype)

/-- The extractor `Json<T>`, or the status of its rejection. -/
def extractJson {β : Type} (decode : Bytes → Except JsonRejection β) (req : HttpRequest) :
    Except ℕ β :=
  -- the content type is looked at before the body is read, the length before it is decoded
  match req.header "content-type" with
  | none => .error 415
  | some value =>
    if isJsonContentType value then
      if defaultBodyLimit < req.body.length then .error 413
      else
        match decode req.body with
        | .error .syntaxError => .error 400
        | .error .dataError => .error 422
        | .ok v => .ok v
    else .error 415

section Handlers

variable {R : RaftRpc → Rpc}

/-- What a handler does: its response, and the messages it handed to the Raft of the node. -/
abbrev Handled (R : RaftRpc → Rpc) := HttpResponse × List (RaftCall R)

/-- The handler of a Raft message, with the text it puts before an error. -/
def raftHandler (k : RaftRpc) (errorText : String) (state : AppState R) (req : HttpRequest) :
    Handled R :=
  match extractJson (R k).decodeReq req with
  | .error status => (.ofStatus status, [])
  | .ok rpc =>
    match state.raft with
    -- a message that decodes reaches a node whose Raft was not started
    | none => (⟨503, Json.utf8 "Raft not initialized"⟩, [])
    | some raft =>
      match raft k rpc with
      | .ok res => (⟨200, (R k).encodeResp res⟩, [⟨k, rpc⟩])
      | .error e => (⟨500, Json.utf8 (errorText ++ e)⟩, [⟨k, rpc⟩])

def raftVote : AppState R → HttpRequest → Handled R := raftHandler .vote "Raft vote error: "

def raftAppend : AppState R → HttpRequest → Handled R := raftHandler .append "Raft append error: "

def raftSnapshot : AppState R → HttpRequest → Handled R :=
  raftHandler .snapshot "Raft snapshot error: "

/-- The other handlers, by what they do with a request on their route. -/
abbrev Rest (R : RaftRpc → Rpc) := Route → HttpRequest → Handled R

/-- The routes that answer one method only, by that method. -/
def dispatch (state : AppState R) (rest : Rest R) (route : Route) (req : HttpRequest) :
    Handled R :=
  match route, req.method with
  | .raftVote, .post => raftVote state req
  | .raftVote, _ => (.ofStatus 405, [])
  | .raftAppend, .post => raftAppend state req
  | .raftAppend, _ => (.ofStatus 405, [])
  | .raftSnapshot, .post => raftSnapshot state req
  | .raftSnapshot, _ => (.ofStatus 405, [])
  | route, _ => rest route req

/-- The router of `app`: every route but `/` and `/health` is behind the authentication layer. -/
def app (state : AppState R) (rest : Rest R) (req : HttpRequest) : Handled R :=
  match Route.ofPath req.path with
  | none => (.ofStatus 404, [])
  | some route =>
    -- `/` and `/health` are merged outside the layer
    if route.isPublic then dispatch state rest route req
    else
      authMiddleware state.password req (dispatch state rest route) fun refusal => (refusal, [])

end Handlers

end Oxideq
