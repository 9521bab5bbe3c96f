import Ivory.Node.Events
import Ivory.Rpc.Queries

/-!
# Subscriptions

A connection can have many subscriptions, which come and go while blocks are imported, transactions
arrive and other connections do the same.  The numbers of the subscriptions of a connection are
never used again, so what is written under a number belongs to one subscription.

* `notes`: what was written to a connection for a subscription.
* `Service.granted_run`: the numbers in use were given out before.
* `Service.follow`, `Service.silent`: **a subscription in force**, and one that has ended.
* `Service.subscription_notes`: **a subscriber is told of the events of its kind that its connection
  had not received when it subscribed, up to the end of the subscription, in order and each once,
  and misses one only when it lags.**
-/

namespace Ivory

open Broadcast

/-- What was written for a subscription, in order. -/
def notes (id : List UInt8) (out : List SocketMessage) : List Value :=
  out.filterMap fun
    | .response _ => none
    | .notification id' result => if id' = id then some result else none

@[simp] theorem notes_append (id : List UInt8) (out out' : List SocketMessage) :
    notes id (out ++ out') = notes id out ++ notes id out' := List.filterMap_append

theorem filterMap_key {κ α β : Type} [DecidableEq κ] {l : List (κ × α)}
    (hl : (l.map Prod.fst).Nodup) {k : κ} {v : α} (hmem : (k, v) ∈ l) (f : α → Option β) :
    l.filterMap (fun e => if e.1 = k then f e.2 else none) = (f v).toList := by
  obtain ⟨pre, post, rfl⟩ := List.append_of_mem hmem
  rw [List.map_append, List.map_cons, List.nodup_append] at hl
  obtain ⟨-, hpost, hpre⟩ := hl
  have hnil : ∀ es : List (κ × α), (∀ e ∈ es, e.1 ≠ k) →
      es.filterMap (fun e => if e.1 = k then f e.2 else none) = [] := fun es hes =>
    List.filterMap_eq_nil_iff.mpr fun e he => if_neg (hes e he)
  have hleft : ∀ e ∈ pre, e.1 ≠ k := fun e he =>
    hpre _ (List.mem_map_of_mem he) k List.mem_cons_self
  have hright : ∀ e ∈ post, e.1 ≠ k := fun e he heq =>
    (List.nodup_cons.mp hpost).1 (List.mem_map.mpr ⟨e, he, heq⟩)
  rw [List.filterMap_append, hnil pre hleft, List.filterMap_cons, if_pos rfl, hnil post hright]
  cases f v <;> rfl

namespace Socket

variable {s : Socket} {id : List UInt8}

@[simp] theorem notes_response (s : Socket) (r : JsonRpcResponse) :
    notes id (s.send (.response r)).out = notes id s.out := by
  rw [send, notes_append]
  exact List.append_nil _

@[simp] theorem notes_respond (s : Socket) (rid : Value) (result : Except RpcError Value) :
    notes id (s.respond rid result).out = notes id s.out := notes_response _ _

/-- **An event is told once under each number.** -/
theorem notes_notificationsFor (s : Socket) (order : IterOrder (List UInt8 × SubKind))
    (event : RpcEvent) : notes id (s.notificationsFor order event)
      = (s.subs[id]?.bind (·.notification event)).toList := by
  have hperm := order.perm s.subs.toList
  have hnotes : notes id (s.notificationsFor order event)
      = (order.pick s.subs.toList).filterMap
        fun e => if e.1 = id then e.2.notification event else none := by
    rw [notes, notificationsFor, List.filterMap_filterMap]
    refine List.filterMap_congr fun e _ => ?_
    cases e.2.notification event <;> simp
  rw [hnotes]
  cases hsub : s.subs[id]? with
  | none =>
    refine List.filterMap_eq_nil_iff.mpr fun e he => if_neg ?_
    rintro rfl
    rw [Table.mem_toList.mp (hperm.subset he)] at hsub
    cases hsub
  | some kind =>
    exact filterMap_key ((hperm.map Prod.fst).nodup_iff.mpr s.subs.nodup_keys)
      (hperm.symm.subset (Table.mem_toList.mpr hsub)) (·.notification event)

/-! ### Numbers -/

/-- The number was given out. -/
def Given (s : Socket) (id : List UInt8) : Prop := ∃ k < s.nextId, id = encodeQty k

/-- After at most `n` steps: the numbers in use were given out. -/
structure Granted (s : Socket) (n : ℕ) : Prop where
  next_le : s.nextId.toNat ≤ n + 1
  sub : ∀ id kind, s.subs[id]? = some kind → s.Given id
  note : ∀ id, notes id s.out ≠ [] → s.Given id

theorem Given.ne_next (h : s.Given id) : id ≠ encodeQty s.nextId := by
  obtain ⟨k, hk, rfl⟩ := h
  exact fun heq => (UInt64.ne_of_lt hk) (encodeQty_injective heq)

theorem Granted.mono {n n' : ℕ} (hg : s.Granted n) (h : n ≤ n') : s.Granted n' :=
  ⟨hg.next_le.trans (Nat.succ_le_succ h), hg.sub, hg.note⟩

theorem granted_accept (cursor : ℕ) : (accept cursor).Granted 0 where
  next_le := le_rfl
  sub id kind h := by simp [accept] at h
  note id h := absurd rfl h

end Socket

namespace Service

open Socket

section Move

variable {ep : Endpoint} {i : ℕ} {log : List RpcEvent} {sock sock' : Socket} {x : ServiceStep}
  {id : List UInt8}

theorem SocketMove.next (hm : SocketMove ep i log sock x sock') :
    sock.nextId.toNat ≤ sock'.nextId.toNat ∧ sock'.nextId.toNat ≤ sock.nextId.toNat + 1 := by
  cases hm with
  | subscribe r kind hkind =>
    have hlt := sock.nextId.toNat_lt
    rw [nextId_respond, UInt64.toNat_saturatingAdd, UInt64.toNat_one]
    omega
  | _ => exact ⟨le_rfl, Nat.le_succ _⟩

theorem SocketMove.given (hm : SocketMove ep i log sock x sock') (h : sock.Given id) :
    sock'.Given id := by
  obtain ⟨k, hk, rfl⟩ := h
  exact ⟨k, UInt64.lt_of_lt_of_le hk (UInt64.le_iff_toNat_le.mpr hm.next.1), rfl⟩

/-- **One step keeps the numbers in use among those given out.** -/
theorem SocketMove.granted (hm : SocketMove ep i log sock x sock') {n : ℕ} (hg : sock.Granted n)
    (hn : n + 2 < 2 ^ 64) : sock'.Granted (n + 1) := by
  have hnext := hm.next
  have hgiven : ∀ id, sock.Given id → sock'.Given id := fun _ => hm.given
  refine ⟨by have := hg.next_le; omega, ?_, ?_⟩
  · intro id kind hsub
    cases hm with
    | subscribe r kind' hkind =>
      rw [subs_respond, Table.get_insert] at hsub
      split at hsub
      · next heq =>
        refine ⟨sock.nextId, ?_, heq⟩
        have hle := hg.next_le
        rw [nextId_respond, UInt64.lt_iff_toNat_lt, UInt64.toNat_saturatingAdd, UInt64.toNat_one]
        omega
      · exact hgiven id (hg.sub id kind hsub)
    | unsubscribe r id' hends =>
      rw [subs_respond, Table.get_erase] at hsub
      split at hsub
      · cases hsub
      · exact hgiven id (hg.sub id kind hsub)
    | _ => exact hgiven id (hg.sub id kind hsub)
  · intro id hnote
    refine hgiven id ?_
    cases hm with
    | event x order e he =>
      rw [notes_append, notes_notificationsFor] at hnote
      cases hsub : sock.subs[id]? with
      | none =>
        rw [hsub, Option.bind_none, Option.toList_none, List.append_nil] at hnote
        exact hg.note id hnote
      | some kind => exact hg.sub id kind hsub
    | respond x r =>
      rw [notes_response] at hnote
      exact hg.note id hnote
    | subscribe r kind hkind =>
      rw [notes_respond] at hnote
      exact hg.note id hnote
    | unsubscribe r id' hends =>
      rw [notes_respond] at hnote
      exact hg.note id hnote
    | _ => exact hg.note id hnote

/-- **One step under a subscription.**  What is told is what the step got from the channel. -/
theorem SocketMove.subscribed (hm : SocketMove ep i log sock x sock') {kind : SubKind}
    (hsub : sock.subs[id]? = some kind) (hgiven : sock.Given id)
    (hx : ∀ r, x = .text ep i (some r) → ¬ r.Ends id) :
    sock'.subs[id]? = some kind
      ∧ ∃ got, notes id sock'.out = notes id sock.out ++ got.filterMap kind.notification
        ∧ ∀ first got₀ whole, Got log first sock.cursor got₀ whole →
          (whole → log.length ≤ sock.cursor + capacity) →
          Got log first sock'.cursor (got₀ ++ got) whole := by
  have hnothing : ∀ first (got₀ : List RpcEvent) whole, Got log first sock.cursor got₀ whole →
      (whole → log.length ≤ sock.cursor + capacity) →
      Got log first sock.cursor (got₀ ++ []) whole := by
    intro first got₀ whole hgot _
    rwa [List.append_nil]
  cases hm with
  | stay | close => exact ⟨hsub, [], (List.append_nil _).symm, hnothing⟩
  | respond x r => exact ⟨hsub, [], by rw [notes_response]; simp, hnothing⟩
  | subscribe r kind' hkind =>
    refine ⟨?_, [], by rw [notes_respond]; simp, hnothing⟩
    rw [subs_respond, Table.get_insert_of_ne _ _ hgiven.ne_next, hsub]
  | unsubscribe r id' hends =>
    refine ⟨?_, [], by rw [notes_respond]; simp, hnothing⟩
    rw [subs_respond, Table.get_erase, if_neg, hsub]
    rintro rfl
    exact hx r rfl hends
  | lagged x hlag =>
    refine ⟨hsub, [], (List.append_nil _).symm, fun first got₀ whole hgot hwhole => ?_⟩
    rw [List.append_nil]
    exact hgot.lagged hlag fun hw => absurd (hwhole hw) (Nat.not_le.mpr hlag)
  | event x order e he =>
    refine ⟨hsub, [e], ?_, fun first got₀ whole hgot _ => hgot.value he⟩
    rw [notes_append, notes_notificationsFor, hsub]
    cases h : kind.notification e <;> simp [h]

theorem SocketMove.cursor_le (hm : SocketMove ep i log sock x sock')
    (hle : sock.cursor ≤ log.length) : sock'.cursor ≤ log.length := by
  cases hm with
  | lagged x hlag => exact Nat.sub_le _ _
  | event x order e he => exact (List.getElem?_eq_some_iff.mp he).1
  | _ => exact hle

theorem SocketMove.unsubscribed (hm : SocketMove ep i log sock x sock')
    (hsub : sock.subs[id]? = none) (hgiven : sock.Given id) :
    sock'.subs[id]? = none ∧ notes id sock'.out = notes id sock.out := by
  cases hm with
  | respond x r => exact ⟨hsub, notes_response _ _⟩
  | subscribe r kind' hkind =>
    refine ⟨?_, notes_respond _ _ _⟩
    rw [subs_respond, Table.get_insert_of_ne _ _ hgiven.ne_next, hsub]
  | unsubscribe r id' hends =>
    refine ⟨?_, notes_respond _ _ _⟩
    rw [subs_respond, Table.get_erase, hsub, ite_self]
  | event x order e he =>
    refine ⟨hsub, ?_⟩
    rw [notes_append, notes_notificationsFor, hsub]
    exact List.append_nil _
  | _ => exact ⟨hsub, rfl⟩

end Move

/-! ### Schedules -/

section Run

variable [Keccak] [Ed25519] [Wasmi] (token : Option (List UInt8))

/-- **After every schedule** the numbers in use were given out, and nobody has read further than
there is. -/
theorem granted_run (ctx : RpcContext) : ∀ steps : List ServiceStep, steps.length + 1 < 2 ^ 64 →
    ∀ ep i sock, ((start ctx).run token steps).socket ep i = some sock →
      sock.Granted steps.length ∧ sock.cursor ≤ ((start ctx).run token steps).published.length := by
  intro steps
  induction steps using List.reverseRecOn with
  | nil =>
    intro _ ep i sock h
    cases ep <;> exact nomatch h
  | append_singleton steps x ih =>
    intro hlen ep i sock' h
    rw [List.length_append, List.length_singleton] at hlen ⊢
    rw [run_snoc] at h ⊢
    cases hs : ((start ctx).run token steps).socket ep i with
    | none =>
      obtain ⟨rfl, hpub⟩ := socket_new token hs h
      rw [hpub]
      exact ⟨(granted_accept _).mono (Nat.zero_le _), le_rfl⟩
    | some sock =>
      obtain ⟨hg, hcur⟩ := ih (by omega) ep i sock hs
      obtain ⟨sock'', h', hm, more, hmore⟩ := socket_step token hs x
      rw [h] at h'
      cases h'
      rw [hmore, List.length_append]
      exact ⟨hm.granted hg (by omega), (hm.cursor_le hcur).trans (Nat.le_add_right _ _)⟩

variable {s : Service} {ep : Endpoint} {i : ℕ} {sock : Socket} {id : List UInt8}

/-- In a schedule a connection is never further behind than the channel holds. -/
def KeepsUp (s : Service) (ep : Endpoint) (i : ℕ) (steps : List ServiceStep) : Prop :=
  ∀ done sock, done <+: steps → (s.run token done).socket ep i = some sock →
    (s.run token done).published.length ≤ sock.cursor + capacity

/-- **A subscription in force.** -/
theorem follow {kind : SubKind} (hsock : s.socket ep i = some sock)
    (hsub : sock.subs[id]? = some kind) (hgiven : sock.Given id)
    (hcur : sock.cursor ≤ s.published.length) : ∀ steps : List ServiceStep,
    (∀ r, .text ep i (some r) ∈ steps → ¬ r.Ends id) →
    ∃ sock' got, (s.run token steps).socket ep i = some sock' ∧ sock'.subs[id]? = some kind
      ∧ sock'.Given id ∧ notes id sock'.out = notes id sock.out ++ got.filterMap kind.notification
      ∧ Got (s.run token steps).published sock.cursor sock'.cursor got
        (KeepsUp token s ep i steps) := by
  intro steps
  induction steps using List.reverseRecOn with
  | nil => exact fun _ => ⟨sock, [], hsock, hsub, hgiven, (List.append_nil _).symm, .start hcur _⟩
  | append_singleton steps x ih =>
    intro hends
    obtain ⟨sock₁, got₁, hsock₁, hsub₁, hgiven₁, hnotes₁, hgot₁⟩ := ih fun r hr =>
      hends r (List.mem_append_left _ hr)
    obtain ⟨sock₂, hsock₂, hm, more, hmore⟩ := socket_step token hsock₁ x
    obtain ⟨hsub₂, got₂, hnotes₂, hgot₂⟩ := hm.subscribed hsub₁ hgiven₁ fun r hr =>
      hends r (List.mem_append_right _ (hr ▸ List.mem_singleton_self _))
    have hkeeps : KeepsUp token s ep i (steps ++ [x]) → KeepsUp token s ep i steps :=
      fun h done sock hdone => h done sock (hdone.trans (List.prefix_append _ _))
    have hnow : KeepsUp token s ep i (steps ++ [x]) →
        (s.run token steps).published.length ≤ sock₁.cursor + capacity :=
      fun h => h steps sock₁ (List.prefix_append _ _) hsock₁
    rw [run_snoc, hmore]
    refine ⟨sock₂, got₁ ++ got₂, hsock₂, hsub₂, hm.given hgiven₁, ?_,
      (hgot₂ _ _ _ (hgot₁.imp hkeeps) hnow).send more⟩
    rw [hnotes₂, hnotes₁, List.filterMap_append, List.append_assoc]

/-- **A subscription that has ended.** -/
theorem silent (hsock : s.socket ep i = some sock) (hsub : sock.subs[id]? = none)
    (hgiven : sock.Given id) (steps : List ServiceStep) :
    ∃ sock', (s.run token steps).socket ep i = some sock'
      ∧ notes id sock'.out = notes id sock.out := by
  induction steps generalizing s sock with
  | nil => exact ⟨sock, hsock, rfl⟩
  | cons x steps ih =>
    obtain ⟨sock₁, hsock₁, hm, -⟩ := socket_step token hsock x
    obtain ⟨hsub₁, hnotes₁⟩ := hm.unsubscribed hsub hgiven
    obtain ⟨sock', hsock', hnotes⟩ := ih hsock₁ hsub₁ (hm.given hgiven)
    exact ⟨sock', hsock', hnotes.trans hnotes₁⟩

/-- **What a subscriber is told.**  After any schedule a connection subscribes, and gets a number
under which nothing was written before.  In any schedule that follows, what is written under it are
the notifications for events that the connection had not received when it subscribed, those sent
before it among them, in the order of the channel and each once; all of them up to its place in the
channel if the connection keeps up.  After the request that ends the subscription nothing more is
written under the number, whatever happens. -/
theorem subscription_notes (ctx : RpcContext) (before : List ServiceStep)
    (hlen : before.length + 2 < 2 ^ 64)
    (hsock : ((start ctx).run token before).socket ep i = some sock) (hlive : sock.live = true)
    {r : JsonRpcRequest} (hmethod : r.method = "eth_subscribe") {kind : SubKind}
    (hkind : SubKind.parse r.params = .ok kind) (during : List ServiceStep)
    (hends : ∀ r', .text ep i (some r') ∈ during → ¬ r'.Ends (encodeQty sock.nextId)) :
    ∃ s₁ sock₁ sock₂ got, s₁ = ((start ctx).run token before).step token (.text ep i (some r))
      ∧ s₁.socket ep i = some sock₁
      ∧ notes (encodeQty sock.nextId) sock.out = []
      ∧ sock₁.out = sock.out ++ [.response (.ofResult r.id (.ok (.qty sock.nextId)))]
      ∧ (s₁.run token during).socket ep i = some sock₂
      ∧ notes (encodeQty sock.nextId) sock₂.out = got.filterMap kind.notification
      ∧ got.Sublist (window (s₁.run token during).published sock.cursor sock₂.cursor)
      ∧ (KeepsUp token s₁ ep i during →
        got = window (s₁.run token during).published sock.cursor sock₂.cursor)
      ∧ (sock₂.live = true → ∀ r' after, r'.Ends (encodeQty sock.nextId) →
        ∃ sock₃, (s₁.run token (during ++ .text ep i (some r') :: after)).socket ep i = some sock₃
          ∧ notes (encodeQty sock.nextId) sock₃.out
            = notes (encodeQty sock.nextId) sock₂.out) := by
  obtain ⟨hg, hcur⟩ := granted_run token ctx before (by omega) ep i sock hsock
  generalize (start ctx).run token before = s at hsock hcur
  have hfresh : notes (encodeQty sock.nextId) sock.out = [] :=
    by_contra fun h => (hg.note _ h).ne_next rfl
  have hsock₁ := socket_text token hsock hlive (some r)
  rw [message, if_pos hmethod, subscribe, hkind] at hsock₁
  obtain ⟨-, -, -, more, hmore⟩ := socket_step token hsock (.text ep i (some r))
  have hnext : sock.nextId < sock.nextId.saturatingAdd 1 := by
    have hle := hg.next_le
    rw [UInt64.lt_iff_toNat_lt, UInt64.toNat_saturatingAdd, UInt64.toNat_one]
    omega
  obtain ⟨sock₂, got, hsock₂, hsub₂, hgiven₂, hnotes₂, hgot⟩ := follow token hsock₁
    (Table.get_insert_self _ _ _) ⟨sock.nextId, hnext, rfl⟩
    (by rw [hmore, List.length_append]; exact hcur.trans (Nat.le_add_right _ _)) during hends
  rw [notes_respond, hfresh, List.nil_append] at hnotes₂
  refine ⟨_, _, sock₂, got, rfl, hsock₁, hfresh, rfl, hsock₂, hnotes₂, hgot.sublist,
    hgot.eq_window, fun hlive₂ r' after hr' => ?_⟩
  -- the request takes the number out, and it is not given out again
  have hsock₃ := socket_text token hsock₂ hlive₂ (some r')
  rw [message, if_neg (by rw [hr'.1]; decide), if_pos hr'.1, unsubscribe, hr'.2] at hsock₃
  rw [run_append]
  obtain ⟨sock₃, h₃, hnotes₃⟩ := silent token hsock₃
    (by rw [subs_respond, Table.get_erase, if_pos rfl]) hgiven₂ after
  exact ⟨sock₃, h₃, hnotes₃.trans (notes_respond _ _ _)⟩

end Run

end Service

namespace Devnet

/-- Subscribe to new heads. -/
def subscribeNewHeads : JsonRpcRequest := ⟨"eth_subscribe", .array [.text "newHeads"], .null⟩

/-- A task that tells of an event and changes nothing. -/
def tell (event : RpcEvent) : ServiceStep := .node ⟨fun cs => (cs, [event]), fun _ h => h⟩ [] 1

/-- A connection is accepted, and a block is imported before it subscribes. -/
def earlySteps : List ServiceStep :=
  [.connect .full none, .node (.importBlock blockA) [.incBlocksImported] 1]

/-- A transaction is told of, and the connection receives both events. -/
def toldSteps : List ServiceStep :=
  [tell (.newPendingTx H256.zero), .receive .full 0 inOrder, .receive .full 0 inOrder]

/-- A subscriber that keeps up is told of the head from before its subscription, which its
connection had not received, and not of the transaction. -/
theorem subscription_notes_toldSteps : ∃ s₁ sock₂,
    s₁ = ((Service.start (context (genesis.start TransactionPool.new))).run none
      earlySteps).step none (.text .full 0 (some subscribeNewHeads))
    ∧ (s₁.run none toldSteps).socket .full 0 = some sock₂
    ∧ notes (encodeQty 1) sock₂.out
      = (SubKind.newHeads.notification (.ofHead blockA)).toList := by
  have hsock : ((Service.start (context (genesis.start TransactionPool.new))).run none
      earlySteps).socket .full 0 = some (.accept 0) := rfl
  have hkind : SubKind.parse subscribeNewHeads.params = .ok .newHeads := rfl
  obtain ⟨s₁, -, sock₂, got, hs₁, -, -, -, hsock₂, hnotes, -, hall, -⟩ :=
    Service.subscription_notes none (context (genesis.start TransactionPool.new))
      earlySteps (by decide) hsock rfl rfl hkind toldSteps nofun
  have hkeeps : Service.KeepsUp none s₁ .full 0 toldSteps := by
    intro done sock hdone _
    have hfew : ∀ steps ∈ toldSteps.inits, (s₁.run none steps).published.length ≤ 256 := by
      rw [hs₁]
      decide +kernel
    exact (hfew done ((List.mem_inits done toldSteps).mpr hdone)).trans (Nat.le_add_left _ _)
  have heval : (((s₁.run none toldSteps).socket .full 0).map Socket.cursor) = some 2
      ∧ (s₁.run none toldSteps).published = [.ofHead blockA, .newPendingTx H256.zero] := by
    rw [hs₁]
    decide +kernel
  obtain ⟨hcursor, hpublished⟩ := heval
  rw [hsock₂] at hcursor
  rw [hall hkeeps, Option.some.inj hcursor, hpublished] at hnotes
  exact ⟨s₁, sock₂, hs₁, hsock₂, hnotes⟩

end Devnet

end Ivory
