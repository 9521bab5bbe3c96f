import Ivory.Base.Unwinding
import Ivory.Rpc.Service

/-!
# The endpoint for reading

A node can open a second address that serves a list of methods only.  It shares the chain, the pool,
the metrics and the channel with the first one.  Whatever is sent to it, and whatever is sent to the
first one without the token, leaves one trace outside: its requests are counted in the metrics, by
method and error code, and `GET /metrics` answers the counters to all.  Nothing else of it shows:
not in the pool, not on the network, not in the events, not in the rest of the metrics, and not in
the answers and connections of those who have the token.

* `ServiceStep.hidden`: the steps of such callers, their probes among them.
* `Service.shown`: what the others see, but for the counters of requests.
* `Service.isolated`: **what the others see of any schedule is what they see without these steps.**
-/

namespace Ivory

/-- The step is for a caller at the endpoint for reading, or for one without the token. -/
def ServiceStep.hidden (token : Option (List UInt8)) : ServiceStep → Bool
  | .node _ _ _ => false
  | .http ep auth _ | .readyz ep auth | .metrics ep auth | .connect ep auth =>
    ep = .readOnly || !authorized token auth
  | .text ep _ _ | .receive ep _ _ | .close ep _ => ep = .readOnly

/-- The answer without the counters of requests and errors. -/
def HttpReply.uncounted : HttpReply → HttpReply
  | .metrics m => .metrics m.uncounted
  | r => r

/-- The answers of an endpoint to callers with the token, without those counters. -/
def Front.answers (token : Option (List UInt8)) (f : Front) :
    List (Option (List UInt8) × HttpReply) :=
  (f.replies.filter fun a => authorized token a.1).map fun a => (a.1, a.2.uncounted)

theorem Front.answers_append (token : Option (List UInt8)) (f : Front) (auth : Option (List UInt8))
    (r : HttpReply) : ({ f with replies := f.replies ++ [(auth, r)] } : Front).answers token
      = f.answers token ++ if authorized token auth then [(auth, r.uncounted)] else [] := by
  by_cases h : authorized token auth = true <;> simp [answers, h]

namespace Service

variable {token auth : Option (List UInt8)} {s s' : Service}

/-- What those see who have the token and use the endpoint for everything, but for the counters of
requests and errors in the metrics. -/
def shown (token : Option (List UInt8)) (s : Service) : Service :=
  { s with metrics := s.metrics.seen s.ctx, full := ⟨s.full.answers token, s.full.sockets⟩,
           readOnly := ⟨[], []⟩ }

/-- Two services of which the same is shown. -/
structure Alike (token : Option (List UInt8)) (s s' : Service) : Prop where
  ctx : s.ctx = s'.ctx
  metrics : s.metrics.Alike s.ctx s'.metrics
  published : s.published = s'.published
  gossiped : s.gossiped = s'.gossiped
  replies : s.full.answers token = s'.full.answers token
  sockets : s.full.sockets = s'.full.sockets

theorem shown_eq_iff : s.shown token = s'.shown token ↔ Alike token s s' := by
  simp only [shown, mk.injEq, Front.mk.injEq, and_true]
  constructor
  · rintro ⟨hctx, hmetrics, hpublished, hgossiped, hreplies, hsockets⟩
    rw [← hctx] at hmetrics
    exact ⟨hctx, IvoryMetrics.seen_eq_iff.mp hmetrics, hpublished, hgossiped, hreplies, hsockets⟩
  · intro h
    refine ⟨h.ctx, ?_, h.published, h.gossiped, h.replies, h.sockets⟩
    rw [← h.ctx]
    exact IvoryMetrics.seen_eq_iff.mpr h.metrics

/-! ### Hidden steps -/

theorem shown_count (s : Service) (method : String) (result : Except RpcError Value) :
    { s with metrics := s.metrics.count method result }.shown token = s.shown token := by
  rw [shown, IvoryMetrics.seen_count]
  rfl

theorem shown_reply_of_hidden (s : Service) {ep : Endpoint} (r : HttpReply)
    (h : ep = .readOnly ∨ authorized token auth = false) :
    (s.reply ep auth r).shown token = s.shown token := by
  cases ep with
  | readOnly => rfl
  | full =>
    have hauth : ¬ authorized token auth = true := by simpa using h
    have hanswers := Front.answers_append token s.full auth r
    rw [if_neg hauth, List.append_nil] at hanswers
    rw [shown, shown, ← hanswers]
    rfl

theorem shown_onSocket_readOnly {i : ℕ} {f : Socket → Socket × Service}
    (hf : ∀ sock, (f sock).2.shown token = s.shown token) :
    (s.onSocket .readOnly i f).shown token = s.shown token := by
  unfold onSocket
  split
  · rfl
  · split
    · exact hf _
    · rfl

section

variable [Keccak] [Ed25519] [Wasmi]

/-- **A request that submits nothing leaves its count behind.** -/
theorem commit_eq {ep : Endpoint} {method : String} {params : Value} {reply : RpcReply}
    (h : (s.context ep).handle method params = some reply)
    (hmethod : ¬ (s.context ep).Allows method ∨ method ≠ Method.sendRawTransaction.name) :
    s.commit method reply = { s with metrics := s.metrics.count method reply.result } := by
  rw [RpcContext.handle_eq_answer hmethod h]
  cases ep <;> simp only [commit, RpcContext.answer, context, List.append_nil]

/-- **A request at the endpoint for reading is counted, and leaves nothing else behind.** -/
theorem dispatch_readOnly {r : JsonRpcRequest} {response : JsonRpcResponse}
    (h : s.dispatch .readOnly r = some (response, s')) : s'.shown token = s.shown token := by
  obtain ⟨reply, hreply, heq⟩ := Option.map_eq_some_iff.mp h
  obtain ⟨-, rfl⟩ := Prod.mk.inj heq
  have hmethod : ¬ (s.context .readOnly).Allows r.method
      ∨ r.method ≠ Method.sendRawTransaction.name := by
    refine Classical.or_iff_not_imp_left.mpr fun hallows hr => ?_
    have hmem := not_not.mp hallows readOnlyMethods rfl
    rw [hr] at hmem
    exact absurd hmem (by decide)
  rw [commit_eq hreply hmethod, shown_count]

theorem message_readOnly (s : Service) (sock : Socket) (request : Option JsonRpcRequest) :
    (s.message .readOnly sock request).2.shown token = s.shown token := by
  cases request with
  | none => rfl
  | some r =>
    rw [message]
    split
    · rfl
    · split
      · rfl
      · split
        · rfl
        · next h => exact dispatch_readOnly h

theorem shown_readyz_of_hidden (s : Service) {ep : Endpoint}
    (h : ep = .readOnly ∨ authorized token auth = false) :
    (s.readyz ep auth).shown token = s.shown token := by
  rw [readyz]
  split
  · rfl
  · next reply hreply =>
    rw [shown_reply_of_hidden _ _ h, commit_eq hreply (.inr (by decide)), shown_count]

theorem shown_step_of_hidden (token : Option (List UInt8)) (s : Service) (x : ServiceStep)
    (hx : x.hidden token = true) : (s.step token x).shown token = s.shown token := by
  cases x with
  | node task writes peers => cases hx
  | http ep auth body =>
    rw [step]
    split
    · next hauth =>
      obtain rfl : ep = .readOnly := by simpa [ServiceStep.hidden, hauth] using hx
      cases body with
      | notJson => rfl
      | notRequest => rfl
      | request r =>
        rw [http]
        split
        · rfl
        · next h => exact (dispatch_readOnly h : _)
    · next hauth => exact s.shown_reply_of_hidden _ (.inr (by simpa using hauth))
  | readyz ep auth =>
    exact s.shown_readyz_of_hidden (by simpa [ServiceStep.hidden] using hx)
  | metrics ep auth =>
    rw [step, shown_reply_of_hidden _ _ (by simpa [ServiceStep.hidden] using hx), shown,
      IvoryMetrics.seen_refresh]
    rfl
  | connect ep auth =>
    rw [step]
    split
    · next hauth =>
      obtain rfl : ep = .readOnly := by simpa [ServiceStep.hidden, hauth] using hx
      rfl
    · next hauth => exact s.shown_reply_of_hidden _ (.inr (by simpa using hauth))
  | text ep i request =>
    obtain rfl : ep = .readOnly := by simpa [ServiceStep.hidden] using hx
    exact shown_onSocket_readOnly fun sock => message_readOnly s sock request
  | receive ep i order =>
    obtain rfl : ep = .readOnly := by simpa [ServiceStep.hidden] using hx
    exact shown_onSocket_readOnly fun _ => rfl
  | close ep i =>
    obtain rfl : ep = .readOnly := by simpa [ServiceStep.hidden] using hx
    exact shown_onSocket_readOnly fun _ => rfl

end

/-! ### The other steps -/

namespace Alike

theorem reply (h : Alike token s s') {r r' : HttpReply} (hr : r.uncounted = r'.uncounted) :
    Alike token (s.reply .full auth r) (s'.reply .full auth r') where
  ctx := h.ctx
  metrics := h.metrics
  published := h.published
  gossiped := h.gossiped
  replies := by
    have hanswers := Front.answers_append token s.full auth r
    rw [h.replies, hr] at hanswers
    exact hanswers.trans (Front.answers_append token s'.full auth r').symm
  sockets := h.sockets

theorem commit (h : Alike token s s') (method : String) (reply : RpcReply) :
    Alike token (s.commit method reply) (s'.commit method reply) where
  ctx := by simp only [Service.commit, h.ctx]
  metrics := (h.metrics.count method reply.result).of_head fun hnone => hnone
  published := congrArg (· ++ reply.events) h.published
  gossiped := congrArg (· ++ reply.sent) h.gossiped
  replies := h.replies
  sockets := h.sockets

theorem setSockets (h : Alike token s s') {socks socks' : List Socket} (hs : socks = socks') :
    Alike token (s.setFront .full { s.full with sockets := socks })
      (s'.setFront .full { s'.full with sockets := socks' }) :=
  { h with sockets := hs }

theorem refresh (h : Alike token s s') : Alike token { s with metrics := s.metrics.refresh s.ctx }
    { s' with metrics := s'.metrics.refresh s'.ctx } := by
  refine { h with metrics := IvoryMetrics.seen_eq_iff.mp ?_ }
  rw [← h.ctx, IvoryMetrics.seen_refresh, IvoryMetrics.seen_refresh]
  exact IvoryMetrics.seen_eq_iff.mpr h.metrics

theorem onSocket (h : Alike token s s') {i : ℕ} {f f' : Socket → Socket × Service}
    (hf : ∀ sock, (f sock).1 = (f' sock).1 ∧ Alike token (f sock).2 (f' sock).2) :
    Alike token (s.onSocket .full i f) (s'.onSocket .full i f') := by
  have hsocket : s.socket .full i = s'.socket .full i := congrArg (·[i]?) h.sockets
  unfold Service.onSocket
  rw [hsocket]
  split
  · exact h
  · next sock _ =>
    obtain ⟨hsock, hlike⟩ := hf sock
    split
    · exact hlike.setSockets (congrArg₂ (fun l x => l.set i x) hlike.sockets hsock)
    · exact h

theorem context (h : Alike token s s') (ep : Endpoint) : s.context ep = s'.context ep := by
  cases ep <;> simp only [Service.context, h.ctx]

section

variable [Keccak] [Ed25519] [Wasmi]

theorem http (h : Alike token s s') (body : HttpBody) :
    Alike token (s.http .full auth body) (s'.http .full auth body) := by
  cases body with
  | notJson => exact h.reply rfl
  | notRequest => exact h.reply rfl
  | request r =>
    rw [Service.http, Service.http, dispatch, dispatch, h.context .full]
    cases (s'.context .full).handle r.method r.params with
    | none => exact h
    | some reply => exact (h.commit r.method reply).reply rfl

theorem readyz (h : Alike token s s') :
    Alike token (s.readyz .full auth) (s'.readyz .full auth) := by
  rw [Service.readyz, Service.readyz, h.context .full]
  cases (s'.context .full).handle "eth_blockNumber" (.array []) with
  | none => exact h
  | some reply => exact (h.commit "eth_blockNumber" reply).reply rfl

theorem message (h : Alike token s s') (sock : Socket) (request : Option JsonRpcRequest) :
    (s.message .full sock request).1 = (s'.message .full sock request).1
      ∧ Alike token (s.message .full sock request).2 (s'.message .full sock request).2 := by
  cases request with
  | none => exact ⟨rfl, h⟩
  | some r =>
    rw [Service.message, Service.message, dispatch, dispatch, h.context .full]
    split
    · exact ⟨rfl, h⟩
    · split
      · exact ⟨rfl, h⟩
      · cases (s'.context .full).handle r.method r.params with
        | none => exact ⟨rfl, h⟩
        | some reply => exact ⟨rfl, h.commit r.method reply⟩

/-- **The other steps act on what is shown.** -/
theorem step (h : Alike token s s') (x : ServiceStep) (hx : x.hidden token = false) :
    Alike token (s.step token x) (s'.step token x) := by
  cases x with
  | node task writes peers =>
    have hmetrics := h.metrics.writes writes
    refine ⟨?_, hmetrics.of_head (task.head s.ctx.chain), ?_, h.gossiped, h.replies, h.sockets⟩
    · simp only [Service.step, h.ctx]
    · simp only [Service.step, h.ctx, h.published]
  | http ep auth body =>
    simp only [ServiceStep.hidden, Bool.or_eq_false_iff, decide_eq_false_iff_not,
      Bool.not_eq_false'] at hx
    obtain ⟨hep, hauth⟩ := hx
    rw [Service.step, Service.step, if_pos hauth, if_pos hauth]
    cases ep with
    | readOnly => exact absurd rfl hep
    | full => exact h.http body
  | readyz ep auth =>
    cases ep with
    | readOnly => cases hx
    | full => exact h.readyz
  | metrics ep auth =>
    cases ep with
    | readOnly => cases hx
    | full =>
      have hseen := IvoryMetrics.seen_eq_iff.mpr h.metrics
      rw [Service.step, Service.step]
      refine h.refresh.reply (congrArg HttpReply.metrics ?_)
      rw [← h.ctx]
      exact hseen
  | connect ep auth =>
    simp only [ServiceStep.hidden, Bool.or_eq_false_iff, decide_eq_false_iff_not,
      Bool.not_eq_false'] at hx
    obtain ⟨hep, hauth⟩ := hx
    rw [Service.step, Service.step, if_pos hauth, if_pos hauth]
    cases ep with
    | readOnly => exact absurd rfl hep
    | full => exact h.setSockets (by rw [h.published]; exact congrArg (· ++ _) h.sockets)
  | text ep i request =>
    cases ep with
    | readOnly => cases hx
    | full => exact h.onSocket fun sock => h.message sock request
  | receive ep i order =>
    cases ep with
    | readOnly => cases hx
    | full =>
      rw [Service.step, Service.step, h.published]
      exact h.onSocket fun _ => ⟨rfl, h⟩
  | close ep i =>
    cases ep with
    | readOnly => cases hx
    | full =>
      rw [Service.step, Service.step]
      exact h.onSocket fun _ => ⟨rfl, h⟩

end

end Alike

variable [Keccak] [Ed25519] [Wasmi]

theorem isolates (token : Option (List UInt8)) :
    Unwinding.Isolates (step token) (shown token) (ServiceStep.hidden token) where
  unseen s x hx := shown_step_of_hidden token s x hx
  congr _ _ x hx hs := shown_eq_iff.mpr ((shown_eq_iff.mp hs).step x hx)

/-- **Callers who read, or have no token, are not noticed but in the counters of requests.**  For
every schedule of all tasks: the chain, the pool, the events, what is passed on to the network, and
all answers and connections of the callers with the token at the first endpoint are the same as in
the schedule without the steps of the other callers, their probes included.  The one exception are
the numbers of requests and errors by method, which `GET /metrics` answers with the other
metrics. -/
theorem isolated (token : Option (List UInt8)) (s : Service) (steps : List ServiceStep) :
    (s.run token steps).shown token
      = (s.run token (steps.filter fun x => !x.hidden token)).shown token :=
  (isolates token).foldl steps rfl

end Service

end Ivory
