import Oxideq.Http.App
import Oxideq.Replication.Types

/-!
# The Raft network

The senders of `replication/network.rs`: each posts its message as JSON to the peer and reads the
answer from a successful response. None of them knows the password the peer asks for, so no
message ever reaches a Raft (`not_transparent`).
-/

namespace Oxideq

/-- The address a message is posted to. -/
structure Url where
  scheme : String
  authority : String
  path : List String
  deriving DecidableEq, Repr

/-- `RPCError::Network`, with its text. -/
inductive RpcError where
  | network (text : String)
  deriving DecidableEq, Repr

/-- The way a status is displayed, for those the router answers with. -/
def statusText (status : ℕ) : String :=
  match status with
  | 400 => "400 Bad Request"
  | 401 => "401 Unauthorized"
  | 404 => "404 Not Found"
  | 405 => "405 Method Not Allowed"
  | 413 => "413 Payload Too Large"
  | 415 => "415 Unsupported Media Type"
  | 422 => "422 Unprocessable Entity"
  | 500 => "500 Internal Server Error"
  | 503 => "503 Service Unavailable"
  | _ => "unknown status code"

/-- `StatusCode::is_success`. -/
def HttpResponse.isSuccess (resp : HttpResponse) : Bool := 200 ≤ resp.status && resp.status < 300

/-- The request `client.post(url).json(rpc)` sends: the headers are those `reqwest` sets by
itself. -/
def postJson (url : Url) (body : Bytes) : HttpRequest where
  method := .post
  path := url.path
  headers := [("content-type", Json.utf8 "application/json"), ("accept", Json.utf8 "*/*"),
    ("host", Json.utf8 url.authority), ("content-length", Json.natDigits body.length)]
  body := body

section Sending

variable {R : RaftRpc → Rpc}

/-- An exchange: the response to a request sent to a URL, or the text of a failure, and the
messages that reached a Raft on the way. -/
abbrev Exchange (R : RaftRpc → Rpc) :=
  Url → HttpRequest → Except String HttpResponse × List (RaftCall R)

/-- The exchange that brings every request to the peer and its response back. -/
def reliable (peer : HttpRequest → Handled R) : Exchange R := fun _ req =>
  ((.ok (peer req).1), (peer req).2)

structure NetworkConnection where
  target : NodeId
  targetNode : BasicNode
  scheme : String

/-- `Network::scheme`. -/
def scheme (useTls : Bool) : String := if useTls then "https" else "http"

/-- `Network::new_client`. -/
def newClient (useTls : Bool) (target : NodeId) (node : BasicNode) : NetworkConnection :=
  ⟨target, node, scheme useTls⟩

namespace NetworkConnection

/-- A message sent to the last segment of its path, and the answer read back. -/
def send (conn : NetworkConnection) (exchange : Exchange R) (k : RaftRpc) (segment : String)
    (rpc : (R k).Req) : Except RpcError (R k).Resp × List (RaftCall R) :=
  let url : Url := ⟨conn.scheme, conn.targetNode.addr, ["raft", segment]⟩
  match exchange url (postJson url ((R k).encodeReq rpc)) with
  | (.error e, calls) => (.error (.network e), calls)
  | (.ok resp, calls) =>
    if resp.isSuccess then
      match (R k).decodeResp resp.body with
      | none => (.error (.network "error decoding response body"), calls)
      | some res => (.ok res, calls)
    else (.error (.network ("Error response: " ++ statusText resp.status)), calls)

def appendEntries (conn : NetworkConnection) (exchange : Exchange R) (rpc : (R .append).Req) :
    Except RpcError (R .append).Resp × List (RaftCall R) :=
  conn.send exchange .append "append" rpc

def installSnapshot (conn : NetworkConnection) (exchange : Exchange R) (rpc : (R .snapshot).Req) :
    Except RpcError (R .snapshot).Resp × List (RaftCall R) :=
  conn.send exchange .snapshot "snapshot" rpc

def vote (conn : NetworkConnection) (exchange : Exchange R) (rpc : (R .vote).Req) :
    Except RpcError (R .vote).Resp × List (RaftCall R) :=
  conn.send exchange .vote "vote" rpc

/-- The method of `RaftNetwork` for a message. -/
def method (conn : NetworkConnection) (exchange : Exchange R) :
    ∀ k, (R k).Req → Except RpcError (R k).Resp × List (RaftCall R)
  | .append => conn.appendEntries exchange
  | .vote => conn.vote exchange
  | .snapshot => conn.installSnapshot exchange

end NetworkConnection

/-- Over a reliable exchange with a peer that has the password and runs a Raft, the method
delivers the message, and returns what the Raft of the peer answers. -/
def Transparent (password : String) (raft : Raft R) (rest : Rest R) (conn : NetworkConnection)
    (k : RaftRpc) (rpc : (R k).Req) : Prop :=
  let out := conn.method (reliable (app ⟨password, some raft⟩ rest)) k rpc
  out.2 = [⟨k, rpc⟩] ∧ ∀ res, raft k rpc = .ok res → out.1 = .ok res

/-- A path of the Raft network leads behind the authentication layer. -/
theorem app_raft {req : HttpRequest} {route : Route} (hroute : Route.ofPath req.path = some route)
    (hpublic : route.isPublic = false) (state : AppState R) (rest : Rest R) :
    app state rest req
      = authMiddleware state.password req (dispatch state rest route)
        fun refusal => (refusal, []) := by
  rw [app, hroute]
  simp only [hpublic, Bool.false_eq_true, if_false]

/-- The senders set no password header. -/
theorem postJson_header (url : Url) (body : Bytes) :
    (postJson url body).header "x-oxideq-password" = none := by
  simp [postJson, HttpRequest.header]

/-- A posted message is refused before any handler sees it. -/
theorem app_postJson (url : Url) {route : Route} (hroute : Route.ofPath url.path = some route)
    (hpublic : route.isPublic = false) (body : Bytes) (state : AppState R) (rest : Rest R) :
    app state rest (postJson url body) = (.ofStatus 401, []) := by
  rw [app_raft hroute hpublic, authMiddleware, postJson_header]

/-- **Every message is refused.** Whatever the password, the peer and the message, the sender
gets the same error and the Raft of the peer nothing. -/
theorem send_refused (conn : NetworkConnection) (state : AppState R) (rest : Rest R) (k : RaftRpc)
    (segment : String) (route : Route) (hroute : Route.ofPath ["raft", segment] = some route)
    (hpublic : route.isPublic = false) (rpc : (R k).Req) :
    conn.send (reliable (app state rest)) k segment rpc
      = (.error (.network "Error response: 401 Unauthorized"), []) := by
  have hrefused := app_postJson ⟨conn.scheme, conn.targetNode.addr, ["raft", segment]⟩
    hroute hpublic ((R k).encodeReq rpc) state rest
  unfold NetworkConnection.send reliable
  simp only [hrefused]
  rfl

theorem method_refused (conn : NetworkConnection) (state : AppState R) (rest : Rest R)
    (k : RaftRpc) (rpc : (R k).Req) :
    conn.method (reliable (app state rest)) k rpc
      = (.error (.network "Error response: 401 Unauthorized"), []) := by
  cases k with
  | append => exact send_refused conn state rest .append "append" .raftAppend rfl rfl rpc
  | vote => exact send_refused conn state rest .vote "vote" .raftVote rfl rfl rpc
  | snapshot => exact send_refused conn state rest .snapshot "snapshot" .raftSnapshot rfl rfl rpc

theorem Transparent.elim {password : String} {raft : Raft R} {rest : Rest R}
    {conn : NetworkConnection} {k : RaftRpc} {rpc : (R k).Req}
    (h : Transparent password raft rest conn k rpc) : False := by
  have hdelivered := h.1
  rw [method_refused] at hdelivered
  cases hdelivered

/-- **No message gets through**, whatever the password, the peer and its Raft. -/
theorem not_transparent (password : String) (raft : Raft R) (rest : Rest R)
    (conn : NetworkConnection) (k : RaftRpc) (rpc : (R k).Req) :
    ¬ Transparent password raft rest conn k rpc := fun h => h.elim

/-! ### What is missing -/

/-- The route of a message. -/
def RaftRpc.route : RaftRpc → Route
  | .append => .raftAppend
  | .vote => .raftVote
  | .snapshot => .raftSnapshot

/-- The same request with the password header in front. -/
def HttpRequest.withPassword (req : HttpRequest) (password : String) : HttpRequest :=
  { req with headers := ("x-oxideq-password", Json.utf8 password) :: req.headers }

theorem isJsonContentType_json :
    isJsonContentType (Json.utf8 "application/json") = true := by decide

/-- With the header the message would be delivered and answered: nothing else stands between the
sender and the Raft of the peer. -/
theorem app_withPassword (password : String) (raft : Raft R) (rest : Rest R) (k : RaftRpc)
    {rpc : (R k).Req} {res : (R k).Resp} {url : Url}
    (hroute : Route.ofPath url.path = some k.route)
    (hdecode : (R k).decodeReq ((R k).encodeReq rpc) = .ok rpc)
    (hsize : ((R k).encodeReq rpc).length ≤ defaultBodyLimit) (hres : raft k rpc = .ok res) :
    app ⟨password, some raft⟩ rest ((postJson url ((R k).encodeReq rpc)).withPassword password)
      = (⟨200, (R k).encodeResp res⟩, [⟨k, rpc⟩]) := by
  have hpublic : k.route.isPublic = false := by cases k <;> rfl
  have hheader : ((postJson url ((R k).encodeReq rpc)).withPassword password).header
      "x-oxideq-password" = some (Json.utf8 password) := by
    simp [HttpRequest.withPassword, HttpRequest.header]
  have hextract : extractJson (R k).decodeReq
      ((postJson url ((R k).encodeReq rpc)).withPassword password) = .ok rpc := by
    have hjson : ((postJson url ((R k).encodeReq rpc)).withPassword password).header
        "content-type" = some (Json.utf8 "application/json") := by
      simp [HttpRequest.withPassword, postJson, HttpRequest.header]
    have hbody : ((postJson url ((R k).encodeReq rpc)).withPassword password).body
        = (R k).encodeReq rpc := rfl
    rw [extractJson, hjson, hbody]
    simp only [isJsonContentType_json, if_true]
    rw [if_neg (Nat.not_lt.mpr hsize), hdecode]
  have hhandler : ∀ errorText, raftHandler k errorText ⟨password, some raft⟩
      ((postJson url ((R k).encodeReq rpc)).withPassword password)
      = (⟨200, (R k).encodeResp res⟩, [⟨k, rpc⟩]) := by
    intro errorText
    rw [raftHandler, hextract]
    simp only [hres]
  rw [app_raft hroute hpublic, authMiddleware, hheader]
  simp only [and_self, if_true]
  cases k with
  | append => exact hhandler _
  | vote => exact hhandler _
  | snapshot => exact hhandler _

end Sending

/-! ### A vote -/

/-- Messages by their JSON texts. -/
def textRpc : Rpc where
  Req := Bytes
  Resp := Bytes
  encodeReq := id
  decodeReq := .ok
  encodeResp := id
  decodeResp := some

/-- The vote of node 1 in term 1. -/
def voteValue : Json.Value :=
  .obj [("leader_id", .obj [("term", .int 1), ("node_id", .int 1)]), ("committed", .bool false)]

/-- A request for this vote. -/
def voteRequest : Bytes := Json.print (.obj [("vote", voteValue), ("last_log_id", .null)])

/-- A Raft that grants it. -/
def granting : Raft fun _ => textRpc := fun _ _ =>
  .ok (Json.print (.obj [("vote", voteValue), ("vote_granted", .bool true),
    ("last_log_id", .null)]))

theorem not_transparent_vote :
    ¬ Transparent "cluster_secret" granting (fun _ _ => (.ofStatus 404, []))
      (newClient false 2 ⟨"127.0.0.1:8542"⟩) .vote voteRequest := fun h => h.elim

end Oxideq
