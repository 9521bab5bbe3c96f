import Ivory.Base.Broadcast
import Ivory.Rpc.Metrics

/-!
# The RPC service

What runs around the methods: the two endpoints of a node, the bearer token, HTTP requests, and
WebSocket connections with their subscriptions (`server.rs`, `websocket.rs`, and the start of the
endpoints in `node.rs`).

All tasks share the chain, the pool, the metrics and one broadcast channel.  The import and producer
tasks, the requests and the connections take their steps in any order; a schedule is a list of
steps.

* `Socket`: a connection, with its subscriptions and its place in the channel.
* `Service.step`, `Service.run`: one step, and a schedule.
* `Service.SocketMove`, `Service.socket_step`: **all that a step can do to a connection**;
  `Service.socket_new`: where connections come from.
-/

namespace Ivory

/-! ### JSON-RPC -/

/-- A request, as far as it is read. -/
structure JsonRpcRequest where
  method : String
  params : Value
  id : Value

/-- An error object; the message is followed by the detail. -/
structure JsonRpcError where
  code : ℤ
  message : String
  detail : Option Detail
deriving DecidableEq

namespace JsonRpcError

/-- `parse_error`. -/
def parseError : JsonRpcError := ⟨-32700, "Parse error", none⟩

/-- `invalid_request`. -/
def invalidRequest : JsonRpcError := ⟨-32600, "Invalid Request", none⟩

/-- `from` an error of the handler. -/
def ofRpcError : RpcError → JsonRpcError
  | .methodNotFound m => ⟨-32601, "Method not found: " ++ m, none⟩
  | .invalidParams d => ⟨-32602, "Invalid params: ", some d⟩
  | .internal d | .server d => ⟨-32603, "Internal error: ", some d⟩
  | .transactionNotFound => ⟨-32000, "Transaction not found", none⟩
  | .blockNotFound => ⟨-32001, "Block not found", none⟩
  | .accountNotFound => ⟨-32002, "Account not found", none⟩

theorem code_ofRpcError (e : RpcError) : (ofRpcError e).code = e.code := by
  cases e <;> rfl

end JsonRpcError

/-- A response. -/
structure JsonRpcResponse where
  result : Except JsonRpcError Value
  id : Value

/-- The response with the result of the handler. -/
def JsonRpcResponse.ofResult (id : Value) (result : Except RpcError Value) : JsonRpcResponse :=
  ⟨result.mapError .ofRpcError, id⟩

/-! ### Subscriptions -/

/-- What a subscription is about. -/
inductive SubKind
  | newHeads
  | newPendingTx
  | logs (address : Option Address)
deriving DecidableEq

namespace SubKind

/-- The kind that `subscribe` reads from the parameters. -/
def parse (params : Value) : Except RpcError SubKind := do
  let items ← paramsArray params
  match items.head?.bind Value.asStr with
  | none => invalidParams "missing topic"
  | some topic =>
    if topic = utf8 "newHeads" then .ok .newHeads
    else if topic = utf8 "newPendingTransactions" then .ok .newPendingTx
    else if topic = utf8 "logs" then
      .ok (.logs (((items[1]?.bind (Value.field · "address")).bind Value.asStr).bind
        (fixedFromHex 20)))
    else .error (.invalidParams (.unknownSubscription topic))

/-- `logs_json`. -/
def logsJson (logs : List Log) (address : Option Address) (blockNumber : UInt64)
    (blockHash : H256) : Value :=
  .array ((logs.filter fun l => address.all fun a => l.address = a).map fun l =>
    .object
      [("address", .fixed l.address),
       ("topics", .array (l.topics.toList.map .fixed)),
       ("data", .bytes l.data.toList),
       ("blockNumber", .qty blockNumber),
       ("blockHash", .fixed blockHash)])

/-- What a subscriber is told of an event. -/
def notification : SubKind → RpcEvent → Option Value
  | .newHeads, .newHead number hash parentHash miner timestamp stateRoot gasLimit gasUsed =>
    some (.object
      [("number", .qty number),
       ("hash", .fixed hash),
       ("parentHash", .fixed parentHash),
       ("miner", .fixed miner),
       ("timestamp", .qty timestamp),
       ("stateRoot", .fixed stateRoot),
       ("gasLimit", .qty gasLimit),
       ("gasUsed", .qty gasUsed)])
  | .newPendingTx, .newPendingTx hash => some (.fixed hash)
  | .logs address, .newLogs entries blockNumber blockHash =>
    some (logsJson entries address blockNumber blockHash)
  | _, _ => none

end SubKind

/-- What is written to a connection. -/
inductive SocketMessage
  | response (r : JsonRpcResponse)
  | notification (id : List UInt8) (result : Value)

/-- A WebSocket connection: its subscriptions, the number of the next one, its place in the
channel, and what was written to it. -/
structure Socket where
  live : Bool
  subs : Table (List UInt8) SubKind
  nextId : UInt64
  cursor : ℕ
  out : List SocketMessage

namespace Socket

/-- A new connection: its receiver starts behind what was sent. -/
def accept (cursor : ℕ) : Socket := ⟨true, ∅, 1, cursor, []⟩

/-- Write a message. -/
def send (s : Socket) (m : SocketMessage) : Socket := { s with out := s.out ++ [m] }

/-- Write a response. -/
def respond (s : Socket) (id : Value) (result : Except RpcError Value) : Socket :=
  s.send (.response (.ofResult id result))

/-- `subscribe`. -/
def subscribe (s : Socket) (r : JsonRpcRequest) : Socket :=
  match SubKind.parse r.params with
  | .error e => s.respond r.id (.error e)
  | .ok kind =>
    { s with subs := s.subs.insert (encodeQty s.nextId) kind,
             nextId := s.nextId.saturatingAdd 1 }.respond r.id (.ok (.qty s.nextId))

/-- The subscription that a request ends. -/
def subscriptionId (params : Value) : Except RpcError (List UInt8) := do
  let items ← paramsArray params
  match items.head?.bind Value.asStr with
  | none => invalidParams "missing subscription id"
  | some id => .ok id

/-- `unsubscribe`. -/
def unsubscribe (s : Socket) (r : JsonRpcRequest) : Socket :=
  match subscriptionId r.params with
  | .error e => s.respond r.id (.error e)
  | .ok id => { s with subs := s.subs.erase id }.respond r.id (.ok (.bool s.subs[id]?.isSome))

/-- `notifications_for`. -/
def notificationsFor (s : Socket) (order : IterOrder (List UInt8 × SubKind)) (event : RpcEvent) :
    List SocketMessage :=
  (order.pick s.subs.toList).filterMap fun e =>
    (e.2.notification event).map (.notification e.1)

/-- The number of events that the channel holds. -/
def capacity : ℕ := 256

/-- The branch of `handle_socket` for the channel. -/
def receive (s : Socket) (order : IterOrder (List UInt8 × SubKind)) (published : List RpcEvent) :
    Socket :=
  match Broadcast.recv capacity published s.cursor with
  | .empty => s
  | .lagged cursor => { s with cursor := cursor }
  | .value event =>
    { s with cursor := s.cursor + 1, out := s.out ++ s.notificationsFor order event }

@[simp] theorem subs_respond (s : Socket) (id : Value) (result : Except RpcError Value) :
    (s.respond id result).subs = s.subs := rfl

@[simp] theorem nextId_respond (s : Socket) (id : Value) (result : Except RpcError Value) :
    (s.respond id result).nextId = s.nextId := rfl

end Socket

/-- The request ends the subscription. -/
def JsonRpcRequest.Ends (r : JsonRpcRequest) (id : List UInt8) : Prop :=
  r.method = "eth_unsubscribe" ∧ Socket.subscriptionId r.params = .ok id

/-! ### Endpoints -/

/-- The address for everything, and the one for reading. -/
inductive Endpoint
  | full
  | readOnly
deriving DecidableEq

/-- `READ_ONLY_METHODS`. -/
def readOnlyMethods : List String :=
  ["eth_chainId", "eth_blockNumber", "eth_getBalance", "eth_getCode", "eth_getStorageAt",
    "eth_getBlockByNumber", "eth_getBlockByHash", "eth_getTransactionByHash",
    "eth_getTransactionReceipt", "eth_getTransactionCount", "eth_call", "eth_estimateGas",
    "eth_getLogs", "eth_getProof", "ivory_nodeInfo", "ivory_listContracts",
    "ivory_getHeaderByNumber"]

/-- The body of a request. -/
inductive HttpBody
  | notJson
  | notRequest
  | request (r : JsonRpcRequest)

/-- The answer to a request. -/
inductive HttpReply
  | unauthorized
  | response (r : JsonRpcResponse)
  | ready (ok : Bool)
  | metrics (m : IvoryMetrics)

/-- `auth_mw`: a request with the header `auth`, for a path that is not exempt. -/
def authorized (token auth : Option (List UInt8)) : Bool :=
  token.all fun expected => auth.any fun v =>
    (utf8 "Bearer ").isPrefixOf v && v.drop (utf8 "Bearer ").length == expected

/-- What was answered at an endpoint, each with the header of the request, and its connections. -/
structure Front where
  replies : List (Option (List UInt8) × HttpReply)
  sockets : List Socket

/-- The service: what it shares with the other tasks, what it passed on to the network, and its
endpoints. -/
structure Service where
  ctx : RpcContext
  metrics : IvoryMetrics
  published : List RpcEvent
  gossiped : List Transaction
  full : Front
  readOnly : Front

/-- What another task does to the chain and the pool, and the events it tells.  No task leaves a
chain without a head. -/
structure NodeTask where
  run : ChainState → ChainState × List RpcEvent
  head : ∀ cs, (run cs).1.store.headBlock = none → cs.store.headBlock = none

/-- What the tasks do. -/
inductive ServiceStep
  | node (task : NodeTask) (writes : List MetricWrite) (peers : ℕ)
  | http (ep : Endpoint) (auth : Option (List UInt8)) (body : HttpBody)
  /-- The two probes are answered whatever the header is. -/
  | readyz (ep : Endpoint) (auth : Option (List UInt8))
  | metrics (ep : Endpoint) (auth : Option (List UInt8))
  | connect (ep : Endpoint) (auth : Option (List UInt8))
  /-- A text on a connection, and the request that it is. -/
  | text (ep : Endpoint) (i : ℕ) (request : Option JsonRpcRequest)
  /-- A connection receives from the channel. -/
  | receive (ep : Endpoint) (i : ℕ) (order : IterOrder (List UInt8 × SubKind))
  | close (ep : Endpoint) (i : ℕ)

namespace Service

/-- The service of a node that starts. -/
def start (ctx : RpcContext) : Service := ⟨ctx, .new, [], [], ⟨[], []⟩, ⟨[], []⟩⟩

def front (s : Service) : Endpoint → Front
  | .full => s.full
  | .readOnly => s.readOnly

def setFront (s : Service) : Endpoint → Front → Service
  | .full, f => { s with full := f }
  | .readOnly, f => { s with readOnly := f }

/-- The context of the handler of an endpoint. -/
def context (s : Service) : Endpoint → RpcContext
  | .full => s.ctx
  | .readOnly => { s.ctx with allowMethods := some readOnlyMethods }

/-- A connection. -/
def socket (s : Service) (ep : Endpoint) (i : ℕ) : Option Socket := (s.front ep).sockets[i]?

def reply (s : Service) (ep : Endpoint) (auth : Option (List UInt8)) (r : HttpReply) : Service :=
  s.setFront ep { s.front ep with replies := (s.front ep).replies ++ [(auth, r)] }

def setSocket (s : Service) (ep : Endpoint) (i : ℕ) (sock : Socket) : Service :=
  s.setFront ep { s.front ep with sockets := (s.front ep).sockets.set i sock }

/-- What the reply of a method leaves behind. -/
def commit (s : Service) (method : String) (reply : RpcReply) : Service :=
  { s with ctx := { s.ctx with chain := { s.ctx.chain with pool := reply.pool } },
           metrics := s.metrics.count method reply.result,
           published := s.published ++ reply.events,
           gossiped := s.gossiped ++ reply.sent }

section

variable [Keccak] [Ed25519] [Wasmi]

/-- `dispatch` of `server.rs`. -/
def dispatch (s : Service) (ep : Endpoint) (r : JsonRpcRequest) :
    Option (JsonRpcResponse × Service) :=
  ((s.context ep).handle r.method r.params).map fun reply =>
    (.ofResult r.id reply.result, s.commit r.method reply)

/-- `http_jsonrpc`.  A handler that panics answers nothing. -/
def http (s : Service) (ep : Endpoint) (auth : Option (List UInt8)) : HttpBody → Service
  | .notJson => s.reply ep auth (.response ⟨.error .parseError, .null⟩)
  | .notRequest => s.reply ep auth (.response ⟨.error .invalidRequest, .null⟩)
  | .request r =>
    match s.dispatch ep r with
    | none => s
    | some (response, s) => s.reply ep auth (.response response)

/-- `readyz`. -/
def readyz (s : Service) (ep : Endpoint) (auth : Option (List UInt8)) : Service :=
  match (s.context ep).handle "eth_blockNumber" (.array []) with
  | none => s
  | some reply => (s.commit "eth_blockNumber" reply).reply ep auth (.ready reply.result.isOk)

/-- `handle_ws_message` on a connection, and the connection with the response.  A handler that
panics ends the connection. -/
def message (s : Service) (ep : Endpoint) (sock : Socket) :
    Option JsonRpcRequest → Socket × Service
  | none => (sock.send (.response ⟨.error .parseError, .null⟩), s)
  | some r =>
    if r.method = "eth_subscribe" then (sock.subscribe r, s)
    else if r.method = "eth_unsubscribe" then (sock.unsubscribe r, s)
    else
      match s.dispatch ep r with
      | none => ({ sock with live := false }, s)
      | some (response, s) => (sock.send (.response response), s)

/-- A step on a connection that is open. -/
def onSocket (s : Service) (ep : Endpoint) (i : ℕ) (f : Socket → Socket × Service) : Service :=
  match s.socket ep i with
  | none => s
  | some sock =>
    if sock.live then
      let (sock, s) := f sock
      s.setSocket ep i sock
    else s

/-- One step. -/
def step (token : Option (List UInt8)) (s : Service) : ServiceStep → Service
  | .node task writes peers =>
    { s with ctx := { s.ctx with chain := (task.run s.ctx.chain).1, peers := peers },
             metrics := writes.foldl MetricWrite.apply s.metrics,
             published := s.published ++ (task.run s.ctx.chain).2 }
  | .http ep auth body =>
    if authorized token auth then s.http ep auth body else s.reply ep auth .unauthorized
  | .readyz ep auth => s.readyz ep auth
  | .metrics ep auth =>
    { s with metrics := s.metrics.refresh s.ctx }.reply ep auth (.metrics (s.metrics.refresh s.ctx))
  | .connect ep auth =>
    if authorized token auth then
      s.setFront ep { s.front ep with
        sockets := (s.front ep).sockets ++ [.accept s.published.length] }
    else s.reply ep auth .unauthorized
  | .text ep i request => s.onSocket ep i fun sock => s.message ep sock request
  | .receive ep i order => s.onSocket ep i fun sock => (sock.receive order s.published, s)
  | .close ep i => s.onSocket ep i fun sock => ({ sock with live := false }, s)

/-- A schedule. -/
def run (token : Option (List UInt8)) (s : Service) (steps : List ServiceStep) : Service :=
  steps.foldl (step token) s

end

/-! ### Parts of the state -/

theorem front_setFront (s : Service) (ep ep' : Endpoint) (f : Front) :
    (s.setFront ep f).front ep' = if ep' = ep then f else s.front ep' := by
  cases ep <;> cases ep' <;> rfl

@[simp] theorem published_setFront (s : Service) (ep : Endpoint) (f : Front) :
    (s.setFront ep f).published = s.published := by
  cases ep <;> rfl

@[simp] theorem socket_reply (s : Service) (ep ep' : Endpoint) (auth : Option (List UInt8))
    (r : HttpReply) (i : ℕ) : (s.reply ep auth r).socket ep' i = s.socket ep' i := by
  rw [socket, reply, front_setFront]
  split
  · next h =>
    subst h
    rfl
  · rfl

@[simp] theorem published_reply (s : Service) (ep : Endpoint) (auth : Option (List UInt8))
    (r : HttpReply) : (s.reply ep auth r).published = s.published := published_setFront _ _ _

@[simp] theorem socket_commit (s : Service) (method : String) (reply : RpcReply) (ep : Endpoint)
    (i : ℕ) : (s.commit method reply).socket ep i = s.socket ep i := by
  cases ep <;> rfl

theorem socket_setSocket (s : Service) (ep ep' : Endpoint) (i j : ℕ) (sock : Socket) :
    (s.setSocket ep i sock).socket ep' j
      = if ep' = ep ∧ j = i then (s.socket ep' j).map fun _ => sock else s.socket ep' j := by
  rw [socket, setSocket, front_setFront]
  by_cases hep : ep' = ep
  · subst hep
    rw [if_pos rfl, List.getElem?_set', socket]
    by_cases hj : i = j
    · rw [if_pos hj, if_pos ⟨rfl, hj.symm⟩]
      rfl
    · rw [if_neg hj, if_neg fun h => hj h.2.symm]
  · rw [if_neg hep, if_neg fun h => hep h.1]
    rfl

@[simp] theorem published_setSocket (s : Service) (ep : Endpoint) (i : ℕ) (sock : Socket) :
    (s.setSocket ep i sock).published = s.published := published_setFront _ _ _

/-- The connections are the same, and events were only added. -/
def Quiet (s s' : Service) : Prop :=
  (∀ ep i, s'.socket ep i = s.socket ep i) ∧ ∃ more, s'.published = s.published ++ more

theorem Quiet.refl (s : Service) : s.Quiet s :=
  ⟨fun _ _ => rfl, [], (List.append_nil _).symm⟩

/-! ### One step of a connection -/

/-- All that a step can do to connection `i` of an endpoint. -/
inductive SocketMove (ep : Endpoint) (i : ℕ) (published : List RpcEvent) (sock : Socket) :
    ServiceStep → Socket → Prop
  | stay (x : ServiceStep) : SocketMove ep i published sock x sock
  | close (x : ServiceStep) : SocketMove ep i published sock x { sock with live := false }
  | respond (x : ServiceStep) (r : JsonRpcResponse) :
    SocketMove ep i published sock x (sock.send (.response r))
  | subscribe (r : JsonRpcRequest) (kind : SubKind) (hkind : SubKind.parse r.params = .ok kind) :
    SocketMove ep i published sock (.text ep i (some r))
      ({ sock with subs := sock.subs.insert (encodeQty sock.nextId) kind,
                   nextId := sock.nextId.saturatingAdd 1 }.respond r.id (.ok (.qty sock.nextId)))
  | unsubscribe (r : JsonRpcRequest) (id : List UInt8) (hends : r.Ends id) :
    SocketMove ep i published sock (.text ep i (some r))
      ({ sock with subs := sock.subs.erase id }.respond r.id (.ok (.bool sock.subs[id]?.isSome)))
  | lagged (x : ServiceStep) (hlag : sock.cursor + Socket.capacity < published.length) :
    SocketMove ep i published sock x { sock with cursor := published.length - Socket.capacity }
  | event (x : ServiceStep) (order : IterOrder (List UInt8 × SubKind)) (e : RpcEvent)
    (he : published[sock.cursor]? = some e) :
    SocketMove ep i published sock x
      { sock with cursor := sock.cursor + 1, out := sock.out ++ sock.notificationsFor order e }

section

variable [Keccak] [Ed25519] [Wasmi]

theorem message_move (s : Service) (ep : Endpoint) (i : ℕ) (sock : Socket)
    (request : Option JsonRpcRequest) :
    SocketMove ep i s.published sock (.text ep i request) (s.message ep sock request).1
      ∧ (∀ ep' j, (s.message ep sock request).2.socket ep' j = s.socket ep' j)
      ∧ ∃ more, (s.message ep sock request).2.published = s.published ++ more := by
  have hsame : ∃ more, s.published = s.published ++ more := ⟨[], (List.append_nil _).symm⟩
  cases request with
  | none => exact ⟨.respond _ _, fun _ _ => rfl, hsame⟩
  | some r =>
    rw [message]
    split
    · refine ⟨?_, fun _ _ => rfl, hsame⟩
      cases hkind : SubKind.parse r.params with
      | error e =>
        simp only [Socket.subscribe, hkind]
        exact .respond _ _
      | ok kind =>
        simp only [Socket.subscribe, hkind]
        exact .subscribe r kind hkind
    · split
      · next hmethod =>
        refine ⟨?_, fun _ _ => rfl, hsame⟩
        cases hid : Socket.subscriptionId r.params with
        | error e =>
          simp only [Socket.unsubscribe, hid]
          exact .respond _ _
        | ok id =>
          simp only [Socket.unsubscribe, hid]
          exact .unsubscribe r id ⟨hmethod, hid⟩
      · unfold dispatch
        cases (s.context ep).handle r.method r.params with
        | none => exact ⟨.close _, fun _ _ => rfl, hsame⟩
        | some reply =>
          exact ⟨.respond _ _, fun ep' j => socket_commit s _ reply ep' j, reply.events, rfl⟩

omit [Keccak] [Ed25519] [Wasmi] in
theorem receive_move (ep : Endpoint) (i : ℕ) (sock : Socket) (x : ServiceStep)
    (order : IterOrder (List UInt8 × SubKind)) (published : List RpcEvent) :
    SocketMove ep i published sock x (sock.receive order published) := by
  unfold Socket.receive
  split
  · exact .stay x
  · next c hrecv =>
    obtain ⟨hlag, hc⟩ := Broadcast.lagged_of_recv hrecv
    rw [hc]
    exact .lagged x hlag
  · next e hrecv => exact .event x order e (Broadcast.getElem?_of_recv hrecv)

omit [Keccak] [Ed25519] [Wasmi] in
theorem onSocket_move {s : Service} {ep ep' : Endpoint} {i j : ℕ} {f : Socket → Socket × Service}
    {x : ServiceStep} {sock : Socket} (hsock : s.socket ep i = some sock)
    (hf : ∀ sock', (ep' = ep ∧ j = i → SocketMove ep i s.published sock' x (f sock').1)
      ∧ (f sock').2.socket ep i = s.socket ep i
      ∧ ∃ more, (f sock').2.published = s.published ++ more) :
    ∃ sock', (s.onSocket ep' j f).socket ep i = some sock'
      ∧ SocketMove ep i s.published sock x sock'
      ∧ ∃ more, (s.onSocket ep' j f).published = s.published ++ more := by
  have hsame : ∃ more, s.published = s.published ++ more := ⟨[], (List.append_nil _).symm⟩
  unfold onSocket
  cases hj : s.socket ep' j with
  | none => exact ⟨sock, hsock, .stay x, hsame⟩
  | some sock₀ =>
    simp only
    split
    · obtain ⟨hmove, hother, hmore⟩ := hf sock₀
      rw [socket_setSocket, published_setSocket, hother, hsock]
      by_cases h : ep = ep' ∧ i = j
      · obtain ⟨rfl, rfl⟩ := h
        rw [hsock] at hj
        cases hj
        exact ⟨_, if_pos ⟨rfl, rfl⟩, hmove ⟨rfl, rfl⟩, hmore⟩
      · exact ⟨sock, if_neg h, .stay x, hmore⟩
    · exact ⟨sock, hsock, .stay x, hsame⟩

omit [Keccak] [Ed25519] [Wasmi] in
theorem quiet_reply (s : Service) (ep : Endpoint) (auth : Option (List UInt8)) (r : HttpReply) :
    s.Quiet (s.reply ep auth r) :=
  ⟨fun ep' i => socket_reply s ep ep' auth r i, [],
    (published_reply s ep auth r).trans (List.append_nil _).symm⟩

omit [Keccak] [Ed25519] [Wasmi] in
theorem quiet_commit_reply (s : Service) (method : String) (reply : RpcReply) (ep : Endpoint)
    (auth : Option (List UInt8)) (r : HttpReply) :
    s.Quiet ((s.commit method reply).reply ep auth r) :=
  ⟨fun ep' i => (socket_reply _ ep ep' auth r i).trans (socket_commit s method reply ep' i),
    reply.events, published_reply _ ep auth r⟩

theorem quiet_http (s : Service) (ep : Endpoint) (auth : Option (List UInt8)) (body : HttpBody) :
    s.Quiet (s.http ep auth body) := by
  cases body with
  | notJson => exact s.quiet_reply ep auth _
  | notRequest => exact s.quiet_reply ep auth _
  | request r =>
    rw [http, dispatch]
    cases (s.context ep).handle r.method r.params with
    | none => exact .refl s
    | some reply => exact s.quiet_commit_reply _ reply ep auth _

omit [Keccak] [Ed25519] [Wasmi] in
theorem quiet_metrics (s : Service) (ep : Endpoint) (auth : Option (List UInt8)) :
    s.Quiet ({ s with metrics := s.metrics.refresh s.ctx }.reply ep auth
      (.metrics (s.metrics.refresh s.ctx))) := by
  obtain ⟨hsocket, hmore⟩ := quiet_reply { s with metrics := s.metrics.refresh s.ctx } ep auth
    (.metrics (s.metrics.refresh s.ctx))
  exact ⟨fun ep' i => (hsocket ep' i).trans (by cases ep' <;> rfl), hmore⟩

theorem quiet_readyz (s : Service) (ep : Endpoint) (auth : Option (List UInt8)) :
    s.Quiet (s.readyz ep auth) := by
  rw [readyz]
  split
  · exact .refl s
  · exact s.quiet_commit_reply _ _ ep auth _

/-- **One step**, seen from a connection. -/
theorem socket_step (token : Option (List UInt8)) {s : Service} {ep : Endpoint} {i : ℕ}
    {sock : Socket} (hsock : s.socket ep i = some sock) (x : ServiceStep) :
    ∃ sock', (s.step token x).socket ep i = some sock'
      ∧ SocketMove ep i s.published sock x sock'
      ∧ ∃ more, (s.step token x).published = s.published ++ more := by
  have hsame : ∃ more, s.published = s.published ++ more := ⟨[], (List.append_nil _).symm⟩
  have hquiet : ∀ {s' : Service}, s.Quiet s' → ∃ sock', s'.socket ep i = some sock'
      ∧ SocketMove ep i s.published sock x sock' ∧ ∃ more, s'.published = s.published ++ more :=
    fun hq => ⟨sock, (hq.1 ep i).trans hsock, .stay x, hq.2⟩
  cases x with
  | node task writes peers => exact ⟨sock, by cases ep <;> exact hsock, .stay _, _, rfl⟩
  | http ep' auth body =>
    rw [step]
    split
    · exact hquiet (s.quiet_http ep' auth body)
    · exact hquiet (s.quiet_reply ep' auth _)
  | readyz ep' auth => exact hquiet (s.quiet_readyz ep' auth)
  | metrics ep' auth => exact hquiet (s.quiet_metrics ep' auth)
  | connect ep' auth =>
    rw [step]
    split
    · refine ⟨sock, ?_, .stay _, by rwa [published_setFront]⟩
      rw [socket, front_setFront]
      split
      · next h =>
        subst h
        exact (List.getElem?_append_left (List.getElem?_eq_some_iff.mp hsock).1).trans hsock
      · exact hsock
    · exact hquiet (s.quiet_reply ep' auth _)
  | text ep' j request =>
    refine onSocket_move hsock fun sock' => ?_
    obtain ⟨hmove, hother, hmore⟩ := s.message_move ep' j sock' request
    refine ⟨?_, hother ep i, hmore⟩
    rintro ⟨rfl, rfl⟩
    exact hmove
  | receive ep' j order =>
    refine onSocket_move hsock fun sock' => ⟨?_, rfl, hsame⟩
    rintro ⟨rfl, rfl⟩
    exact receive_move _ _ _ _ order _
  | close ep' j => exact onSocket_move hsock fun sock' => ⟨fun _ => .close _, rfl, hsame⟩

theorem socket_text (token : Option (List UInt8)) {s : Service} {ep : Endpoint} {i : ℕ}
    {sock : Socket} (hsock : s.socket ep i = some sock) (hlive : sock.live = true)
    (request : Option JsonRpcRequest) :
    (s.step token (.text ep i request)).socket ep i = some (s.message ep sock request).1 := by
  rw [step, onSocket, hsock]
  simp only [hlive, if_true, socket_setSocket, (s.message_move ep i sock request).2.1, hsock,
    and_self, Option.map_some]

omit [Keccak] [Ed25519] [Wasmi] in
theorem socket_onSocket_of_none {s : Service} {ep ep' : Endpoint} {i j : ℕ}
    {f : Socket → Socket × Service} (hnone : s.socket ep i = none)
    (hf : ∀ sock, (f sock).2.socket ep i = s.socket ep i) :
    (s.onSocket ep' j f).socket ep i = none := by
  unfold onSocket
  split
  · exact hnone
  · split
    · simp only [socket_setSocket, hf, hnone, Option.map_none, ite_self]
    · exact hnone

theorem socket_new (token : Option (List UInt8)) {s : Service} {ep : Endpoint} {i : ℕ}
    (hnone : s.socket ep i = none) {x : ServiceStep} {sock : Socket}
    (hsock : (s.step token x).socket ep i = some sock) :
    sock = .accept s.published.length ∧ (s.step token x).published = s.published := by
  have habsurd : ∀ s' : Service, s'.socket ep i = none → s'.socket ep i = some sock →
      sock = .accept s.published.length ∧ s'.published = s.published := by
    intro s' h h'
    rw [h] at h'
    cases h'
  have hquiet : ∀ {s' : Service}, s.Quiet s' → s'.socket ep i = none := fun hq =>
    (hq.1 ep i).trans hnone
  cases x with
  | node task writes peers => exact habsurd _ (by cases ep <;> exact hnone) hsock
  | http ep' auth body =>
    refine habsurd _ ?_ hsock
    rw [step]
    split
    · exact hquiet (s.quiet_http ep' auth body)
    · exact hquiet (s.quiet_reply ep' auth _)
  | readyz ep' auth => exact habsurd _ (hquiet (s.quiet_readyz ep' auth)) hsock
  | metrics ep' auth => exact habsurd _ (hquiet (s.quiet_metrics ep' auth)) hsock
  | connect ep' auth =>
    rw [step] at hsock ⊢
    split at hsock
    · next hauth =>
      rw [if_pos hauth, published_setFront]
      rw [socket, front_setFront] at hsock
      split at hsock
      · next h =>
        subst h
        rw [List.getElem?_append_right (List.getElem?_eq_none_iff.mp hnone)] at hsock
        exact ⟨List.mem_singleton.mp (List.mem_of_getElem? hsock), rfl⟩
      · exact absurd (hnone.symm.trans hsock) nofun
    · exact absurd ((hquiet (s.quiet_reply ep' auth _)).symm.trans hsock) nofun
  | text ep' j request =>
    exact habsurd _ (socket_onSocket_of_none hnone fun sock' =>
      (s.message_move ep' j sock' request).2.1 ep i) hsock
  | receive ep' j order => exact habsurd _ (socket_onSocket_of_none hnone fun _ => rfl) hsock
  | close ep' j => exact habsurd _ (socket_onSocket_of_none hnone fun _ => rfl) hsock

theorem run_snoc (token : Option (List UInt8)) (s : Service) (steps : List ServiceStep)
    (x : ServiceStep) : s.run token (steps ++ [x]) = (s.run token steps).step token x := by
  rw [run, List.foldl_append]
  rfl

theorem run_append (token : Option (List UInt8)) (s : Service) (steps steps' : List ServiceStep) :
    s.run token (steps ++ steps') = (s.run token steps).run token steps' :=
  List.foldl_append

end

end Service

end Ivory
