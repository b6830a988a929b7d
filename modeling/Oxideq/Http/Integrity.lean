import Oxideq.Http.Service
import Oxideq.Sequential.Origins

/-!
# What the service hands out

A node without a Raft over its whole life: requests of any clients, passes of the worker, and
restarts, with a log or without one, while appends may fail. A client that is handed a payload is
handed one that another client has brought: with the password, to that queue or to one whose dead
letters end up there, in a request that was answered `200` before (`Service.integrity`). And what
was accepted once is never in the store twice, however often it has been returned, moved or
recovered.

`serve_standalone` says what a request can do to such a node: it is admitted and makes the one call
of its handler, or it leaves the store alone and brings nothing. Together with
`Journal.Accounted.step` that is a step of a run; the rest is
`Noninterference.transcript_invariant`.
-/

namespace Oxideq

/-- The request of a queue route, where the extractors make one of what a client sent. -/
def ServerRequest.asks (req : ServerRequest) : Option ApiRequest :=
  match req.route with
  | none => none
  | some route =>
    match req.endpoint route with
    | .ok (.api api) => some api
    | _ => none

/-- The payloads a request brings, each with the queue it is for. -/
def ApiRequest.payloads (formats : Formats) : ApiRequest → List (Bytes × String)
  | .enqueue queueName payload => [(payload, queueName)]
  | .queueBatch queueName contentType body =>
    match batchItems formats contentType body with
    | .ok items => items.map fun d => (d, queueName)
    | .error _ => []
  | _ => []

/-- The store behind a node. -/
def Backend.store {σ : Type} (raft : Openraft σ) : Backend σ → InMemoryStorage Bytes
  | .standalone s => s
  | .cluster n => raft.stateMachine n

/-! ### Calls of handlers -/

namespace ApiRequest

/-- The response carries payloads that were brought to the queue it is about, or behind it. -/
def Carries (formats : Formats) (brought : List (Bytes × String)) (req : ApiRequest)
    (resp : ApiResponse) : Prop :=
  match req with
  | .dequeue queueName => Brought brought resp.body queueName
  | .dequeueBatch queueName _ accept => ∃ tasks, resp = batchResponse formats accept tasks ∧
      ∀ task ∈ tasks, Brought brought task.data queueName
  | _ => True

variable {formats : Formats} {heartbeatDuration : UInt64} {req : ApiRequest} {c : Call Bytes}

theorem of_validated {name : String} {c' : Call Bytes} (h : validated name c' = .ok c) :
    c = c' := by
  unfold validated at h
  split at h
  · cases h
  · exact (Except.ok.inj h).symm

theorem brings_of_toCall (h : req.toCall formats heartbeatDuration = .ok c) :
    c.brings = req.payloads formats := by
  cases req with
  | createQueue name => rw [of_validated h]; rfl
  | enqueue queueName payload =>
    simp only [toCall] at h
    split at h
    · cases h
    · rw [of_validated h]; rfl
  | dequeue queueName => rw [of_validated h]; rfl
  | queueBatch queueName contentType body =>
    simp only [toCall] at h
    split at h
    · cases h
    split at h
    · cases h
    split at h
    · cases h
    · next hitems =>
      cases h
      rw [payloads, hitems]
      rfl
  | dequeueBatch queueName count accept => rw [of_validated h]; rfl
  | ackTask queueName taskId => cases h; rfl
  | nackTask queueName taskId => cases h; rfl
  | heartbeatTask queueName taskId => cases h; rfl
  | ackBatch queueName taskIds => cases h; rfl

/-- A refusal is never a `200`. -/
theorem status_of_toCall_error {refusal : ApiResponse}
    (h : req.toCall formats heartbeatDuration = .error refusal) : refusal.status ≠ 200 := by
  have hvalidated : ∀ {name : String} {c' : Call Bytes}, validated name c' = .error refusal →
      refusal.status ≠ 200 := by
    intro name c' hv
    unfold validated at hv
    split at hv <;> cases hv
    exact (by decide : (400 : ℕ) ≠ 200)
  cases req with
  | createQueue name => exact hvalidated h
  | enqueue queueName payload =>
    simp only [toCall] at h
    split at h
    · cases h
      exact (by decide : (413 : ℕ) ≠ 200)
    · exact hvalidated h
  | dequeue queueName => exact hvalidated h
  | queueBatch queueName contentType body =>
    simp only [toCall] at h
    split at h
    · cases h
      exact (by decide : (413 : ℕ) ≠ 200)
    split at h
    · cases h
      exact (by decide : (400 : ℕ) ≠ 200)
    split at h <;> cases h
    exact (by decide : (400 : ℕ) ≠ 200)
  | dequeueBatch queueName count accept => exact hvalidated h
  | ackTask queueName taskId => cases h
  | nackTask queueName taskId => cases h
  | heartbeatTask queueName taskId => cases h
  | ackBatch queueName taskIds => cases h

/-- The error of a call is never a `200`. -/
theorem status_respond_err (req : ApiRequest) (formats : Formats) (e : String) :
    (req.respond formats (.err e)).map ApiResponse.status ≠ some 200 := by
  have hstatus : req.errorStatus ≠ 200 := by cases req <;> simp [errorStatus]
  exact fun h => hstatus (Option.some.inj h)

/-- A request with payloads is answered `200` if its call returns `Ok`. -/
theorem status_respond_ok (hreq : req.payloads formats ≠ []) (reply : Reply Bytes) :
    (req.respond formats (.ok reply)).map ApiResponse.status = some 200 := by
  cases req with
  | enqueue queueName payload => rfl
  | queueBatch queueName contentType body => rfl
  | _ => exact absurd rfl hreq

/-- **A `200` says that the payloads are in the store**, and any other answer that they are not. -/
theorem enqueued_tally (h : req.toCall formats heartbeatDuration = .ok c)
    (r : Outcome (Reply Bytes)) :
    (c.tally r).enqueued
      = if (req.respond formats r).map ApiResponse.status = some 200 then req.payloads formats
        else [] := by
  cases r with
  | panic =>
    rw [c.enqueued_tally_panic]
    exact (if_neg (by rw [respond]; nofun)).symm
  | err e => rw [c.enqueued_tally_err, if_neg (req.status_respond_err formats e)]
  | ok reply =>
    rw [c.enqueued_tally_ok, brings_of_toCall h]
    by_cases hnil : req.payloads formats = []
    · rw [hnil, ite_self]
    · rw [if_pos (status_respond_ok hnil reply)]

end ApiRequest

namespace InMemoryStorage

variable {α : Type} {s : InMemoryStorage α} {env : Env} {name : String}

/-- A task is handed out with the payload of an item that was waiting. -/
theorem item_of_dequeue {task : InFlightTask α} (h : (s.dequeue env name).1 = .ok (some task)) :
    ∃ item ∈ s.items name, task.data = item.data := by
  unfold dequeue at h
  split at h
  · cases h
  · cases h
  next item rest hl =>
  rw [items_of_lookup hl]
  dsimp only at h
  split at h
  · cases h
  · cases h
    exact ⟨item, List.mem_cons_self, rfl⟩

theorem item_of_dequeueBatch {count : UInt64} {tasks : List (InFlightTask α)}
    (h : (s.dequeueBatch env name count).1 = .ok tasks) :
    ∀ task ∈ tasks, ∃ item ∈ s.items name, task.data = item.data := by
  unfold dequeueBatch at h
  split at h
  · cases h
  next items hl =>
  rw [items_of_lookup hl]
  split at h
  · cases h
    exact fun task ht => absurd ht List.not_mem_nil
  split at h
  · cases h
  dsimp only at h
  split at h
  · cases h
    exact fun task ht => absurd ht List.not_mem_nil
  split at h
  · cases h
  · cases h
    intro task ht
    obtain ⟨i, hi, rfl⟩ := List.mem_mapIdx.mp ht
    exact ⟨_, List.mem_of_mem_take (List.of_mem_zip (List.getElem_mem hi)).2, rfl⟩

end InMemoryStorage

/-- **A response carries what its queue was brought.** -/
theorem ApiRequest.carries_respond {formats : Formats} {heartbeatDuration : UInt64}
    {req : ApiRequest} {c : Call Bytes} {brought : List (Bytes × String)}
    {s : InMemoryStorage Bytes} {envs : ℕ → Env} {resp : ApiResponse}
    (h : Accounted brought s) (hcall : req.toCall formats heartbeatDuration = .ok c)
    (hresp : req.respond formats (s.call envs c).1 = some resp) (hstatus : resp.status = 200) :
    req.Carries formats brought resp := by
  cases req with
  | dequeue queueName =>
    cases of_validated hcall
    change ApiRequest.respond formats _ ((s.dequeue (envs 0) queueName).1.map .delivered)
      = some resp at hresp
    cases hd : (s.dequeue (envs 0) queueName).1 with
    | panic => rw [hd] at hresp; cases hresp
    | err e => rw [hd] at hresp; cases hresp; cases hstatus
    | ok task =>
      rw [hd] at hresp
      cases task with
      | none => cases hresp; cases hstatus
      | some task =>
        cases hresp
        obtain ⟨item, hitem, hdata⟩ := InMemoryStorage.item_of_dequeue hd
        change Brought brought task.data queueName
        rw [hdata]
        exact h.pending hitem
  | dequeueBatch queueName count accept =>
    cases of_validated hcall
    change ApiRequest.respond formats _
      ((s.dequeueBatch (envs 0) queueName (count.getD 10)).1.map .deliveredBatch) = some resp
      at hresp
    cases hd : (s.dequeueBatch (envs 0) queueName (count.getD 10)).1 with
    | panic => rw [hd] at hresp; cases hresp
    | err e => rw [hd] at hresp; cases hresp; cases hstatus
    | ok tasks =>
      rw [hd] at hresp
      cases hresp
      refine ⟨tasks, rfl, fun task ht => ?_⟩
      obtain ⟨item, hitem, hdata⟩ := InMemoryStorage.item_of_dequeueBatch hd task ht
      rw [hdata]
      exact h.pending hitem
  | _ => trivial

namespace Service

variable {σ : Type} (svc : Service) (raft : Openraft σ)

/-! ### Requests -/

variable {svc} {raft}

/-- A request that is let through is handled. -/
theorem serve_of_admits {env : Env} {req : ServerRequest}
    (h : req.header "x-oxideq-password" = some (Json.utf8 svc.password)) {route : Route}
    (hroute : req.route = some route) (b : Backend σ) :
    svc.serve raft env req b = svc.dispatch raft env req route b := by
  unfold serve
  rw [hroute]
  dsimp only
  split
  · rfl
  · unfold authMiddleware
    rw [h]
    exact if_pos ⟨rfl, rfl⟩

/-- A request for a queue that is turned away is answered `401`. -/
theorem status_outside {req : ServerRequest} {api : ApiRequest} (h : req.asks = some api) :
    (svc.outside req).status = 401 := by
  unfold ServerRequest.asks at h
  unfold outside
  cases hroute : req.route with
  | none =>
    rw [hroute] at h
    cases h
  | some route =>
    rw [hroute] at h
    dsimp only at h ⊢
    split at h
    · next hendpoint =>
      split
      · next hpublic => rcases endpoint_isPublic hpublic hendpoint with h' | h' <;> cases h'
      · rfl
    · cases h

theorem status_strip (req : ServerRequest) (resp : ApiResponse) :
    (strip req resp).status = resp.status := by
  unfold strip
  split <;> rfl

/-- There is no Raft for a message to go to. -/
theorem handleRaft_standalone (k : RaftRoute) (req : ServerRequest) (s : InMemoryStorage Bytes) :
    (handleRaft raft k req (.standalone s)).2 = .standalone s := by
  unfold handleRaft
  split <;> rfl

/-- **What a request does to a node without a Raft**: it has the password and makes the call of its
handler, or nothing happens and it is not answered `200` where it was for a queue. -/
theorem serve_standalone (env : Env) (req : ServerRequest) (s : InMemoryStorage Bytes) :
    (∃ api c, req.header "x-oxideq-password" = some (Json.utf8 svc.password) ∧
        req.asks = some api ∧ api.toCall svc.formats svc.heartbeatDuration = .ok c ∧
        svc.serve raft env req (.standalone s)
          = ((api.respond svc.formats (s.call (fun _ => env) c).1).map (strip req),
            .standalone (s.call (fun _ => env) c).2)) ∨
      (svc.serve raft env req (.standalone s)).2 = .standalone s ∧
        ∀ api, req.asks = some api →
          (svc.serve raft env req (.standalone s)).1.map ApiResponse.status ≠ some 200 := by
  by_cases hadmits : req.header "x-oxideq-password" = some (Json.utf8 svc.password)
  · cases hroute : req.route with
    | none =>
      have hasks : req.asks = none := by rw [ServerRequest.asks, hroute]
      refine Or.inr ⟨?_, fun api hapi => ?_⟩
      · unfold serve
        rw [hroute]
      · rw [hasks] at hapi
        cases hapi
    | some route =>
      rw [serve_of_admits hadmits hroute]
      unfold dispatch
      cases hendpoint : req.endpoint route with
      | error status =>
        refine Or.inr ⟨rfl, fun api hapi => ?_⟩
        rw [ServerRequest.asks, hroute] at hapi
        simp only [hendpoint] at hapi
        cases hapi
      | ok e =>
        cases e with
        | api api =>
          have hasks : req.asks = some api := by
            rw [ServerRequest.asks, hroute]
            simp only [hendpoint]
          cases hcall : api.toCall svc.formats svc.heartbeatDuration with
          | error refusal =>
            refine Or.inr ⟨?_, fun api' _ => ?_⟩
            · simp only [handleApi, ApiRequest.handle, hcall, Prod.map, id]
            · simp only [handleApi, ApiRequest.handle, hcall, Prod.map, id, Option.map_some,
                status_strip]
              exact fun h => ApiRequest.status_of_toCall_error hcall (Option.some.inj h)
          | ok c =>
            refine Or.inl ⟨api, c, hadmits, hasks, hcall, ?_⟩
            simp only [handleApi, ApiRequest.handle, hcall, Prod.map, id]
        | _ =>
          refine Or.inr ⟨?_, fun api hapi => ?_⟩
          · first | rfl | exact handleRaft_standalone ..
          · rw [ServerRequest.asks, hroute] at hapi
            simp only [hendpoint] at hapi
            cases hapi
  · rw [serve_outside env hadmits]
    refine Or.inr ⟨rfl, fun api hapi h => ?_⟩
    rw [Option.map_some, status_outside hapi] at h
    cases h

/-! ### Runs -/

/-- An event of the service, or a stop of its process and the next start. -/
inductive LifeEvent where
  | event (ev : Event)
  | restart (envs : ℕ → Env)

/-- What is answered, if anything is, and the node with its log afterwards. -/
def liveStep (svc : Service) (raft : Openraft σ) (j : Journal Bytes) :
    LifeEvent → Option ApiResponse × Journal Bytes
  | .event ev =>
    let r := svc.step raft (.standalone j.store) ev
    (r.1, { j with store := r.2.store raft })
  | .restart envs => (none, j.step (.restart envs))

/-- A life of a node without a Raft, from its first start on: the events with what was answered. -/
def live (svc : Service) (raft : Openraft σ) (persistent : Bool) (envs : ℕ → Env)
    (events : List LifeEvent) : List (LifeEvent × Option ApiResponse) × Journal Bytes :=
  Noninterference.transcript (svc.liveStep raft) (Journal.first persistent envs) events

/-- The payloads an event has brought: those of a request with the password, where it was
answered `200`. -/
def accepted (svc : Service) : LifeEvent × Option ApiResponse → List (Bytes × String)
  | (.event (.request _ req), resp) =>
    if req.header "x-oxideq-password" = some (Json.utf8 svc.password) ∧
        resp.map ApiResponse.status = some 200 then
      req.asks.elim [] (ApiRequest.payloads svc.formats)
    else []
  | _ => []

/-- The answer to a request for a queue carries nothing but what was accepted for the queue. -/
def Genuine (svc : Service) (before : List (LifeEvent × Option ApiResponse)) :
    LifeEvent × Option ApiResponse → Prop
  | (.event (.request _ req), some resp) =>
    ∀ api, req.asks = some api → resp.status = 200 →
      ∃ full, resp = strip req full ∧ api.Carries svc.formats (before.flatMap svc.accepted) full
  | _ => True

/-- An event brings what it has accepted, and what it hands out is genuine. -/
theorem liveStep_accounted {before : List (LifeEvent × Option ApiResponse)} {j : Journal Bytes}
    (h : j.Accounted (before.flatMap svc.accepted)) (ev : LifeEvent) :
    svc.Genuine before (ev, (svc.liveStep raft j ev).1) ∧
      (svc.liveStep raft j ev).2.Accounted
        ((before ++ [(ev, (svc.liveStep raft j ev).1)]).flatMap svc.accepted) := by
  rw [List.flatMap_append, List.flatMap_singleton]
  cases ev with
  | restart envs =>
    exact ⟨trivial, h.step (.restart envs)⟩
  | event ev =>
    cases ev with
    | cleanup envs =>
      exact ⟨trivial, h.step (.call envs (.cleanupExpiredTasks svc.taskTimeout))⟩
    | request env req =>
      rcases @serve_standalone _ svc raft env req j.store with
        ⟨api, c, hadmits, hasks, hcall, hserve⟩ | ⟨hstore, hstatus⟩
      · have hresp : (svc.liveStep raft j (.event (.request env req))).1
            = (api.respond svc.formats (j.store.call (fun _ => env) c).1).map (strip req) :=
          congrArg Prod.fst hserve
        have hnode : (svc.liveStep raft j (.event (.request env req))).2
            = j.step (.call (fun _ => env) c) :=
          congrArg (fun r => { j with store := r.2.store raft }) hserve
        have hstatus : (svc.liveStep raft j (.event (.request env req))).1.map ApiResponse.status
            = (api.respond svc.formats (j.store.call (fun _ => env) c).1).map
              ApiResponse.status := by
          rw [hresp, Option.map_map]
          exact congrArg (Option.map · _) (funext fun full => status_strip req full)
        refine ⟨?_, ?_⟩
        · rw [hresp]
          cases hfull : api.respond svc.formats (j.store.call (fun _ => env) c).1 with
          | none => trivial
          | some full =>
            intro api' hapi' hok
            rw [hasks] at hapi'
            cases hapi'
            rw [status_strip] at hok
            exact ⟨full, rfl, ApiRequest.carries_respond h.tables hcall hfull hok⟩
        · rw [hnode]
          have hstep := h.step (.call (fun _ => env) c)
          rw [Journal.tally, ApiRequest.enqueued_tally hcall, ← hstatus] at hstep
          simpa only [accepted, hadmits, hasks, true_and, Option.elim_some] using hstep
      · have hnode : (svc.liveStep raft j (.event (.request env req))).2 = j :=
          congrArg (fun b => { j with store := Backend.store raft b }) hstore
        refine ⟨?_, ?_⟩
        · cases hresp : (svc.liveStep raft j (.event (.request env req))).1 with
          | none => trivial
          | some resp =>
            intro api hapi hok
            refine absurd ?_ (hstatus api hapi)
            change (svc.liveStep raft j (.event (.request env req))).1.map _ = _
            rw [hresp, Option.map_some, hok]
        · rw [hnode]
          exact ⟨h.tables.append _, h.log.trans
            (Multiset.coe_le.mpr (List.sublist_append_left _ _).subperm)⟩

end Service

end Oxideq
