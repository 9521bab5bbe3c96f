import Ivory.Rpc.Handler

/-!
# Metrics

The counters and gauges of a node (`metrics.rs`).  The handlers of both endpoints count their
requests and errors in them, the import and producer tasks write the rest, and `GET /metrics`
answers all of them to anyone.  Kept here are the numbers; left out are the text that `encode` makes
of them and the sum of the production times, which is a float.

* `IvoryMetrics.count`, `MetricWrite.apply`, `IvoryMetrics.refresh`: the writes of a handler, of the
  other tasks, and of `GET /metrics` before it answers.
* `IvoryMetrics.seen`: what `GET /metrics` answers, but for the counters of requests and errors.
* `IvoryMetrics.seen_count`, `IvoryMetrics.seen_refresh`: **requests and probes do not change it**;
  `IvoryMetrics.Alike.writes`: the other tasks act on it.
-/

namespace Ivory

instance ordErrorLabel : Ord (String × ℤ) := lexOrd

instance transOrdErrorLabel : Std.TransOrd (String × ℤ) := Std.instTransOrdProd

/-- `IvoryMetrics`. -/
structure IvoryMetrics where
  rpcRequests : Table String UInt64
  rpcErrors : Table (String × ℤ) UInt64
  headNumber : UInt64
  headTimestamp : UInt64
  txpoolPending : UInt64
  blocksImported : UInt64
  blocksProduced : UInt64
  p2pPeers : UInt64
  p2pMessages : Table String UInt64
  produceBuckets : List UInt64
  produceCount : UInt64

namespace IvoryMetrics

/-- `new`: eleven bounds, and a bucket above them. -/
def new : IvoryMetrics := ⟨∅, ∅, 0, 0, 0, 0, 0, 0, ∅, List.replicate 12 0, 0⟩

/-- One more at a label; a label that is new starts at zero. -/
def bump {κ : Type} [Ord κ] [Std.TransOrd κ] (counts : Table κ UInt64) (label : κ) :
    Table κ UInt64 :=
  counts.insert label (counts[label]?.getD 0 + 1)

/-- `rpc_request`. -/
def rpcRequest (m : IvoryMetrics) (method : String) : IvoryMetrics :=
  { m with rpcRequests := bump m.rpcRequests method }

/-- `rpc_error`. -/
def rpcError (m : IvoryMetrics) (method : String) (code : ℤ) : IvoryMetrics :=
  { m with rpcErrors := bump m.rpcErrors (method, code) }

/-- `set_head`. -/
def setHead (m : IvoryMetrics) (number timestamp : UInt64) : IvoryMetrics :=
  { m with headNumber := number, headTimestamp := timestamp }

/-- `set_txpool_pending`. -/
def setTxpoolPending (m : IvoryMetrics) (n : UInt64) : IvoryMetrics := { m with txpoolPending := n }

/-- `set_p2p_peers`. -/
def setP2pPeers (m : IvoryMetrics) (n : UInt64) : IvoryMetrics := { m with p2pPeers := n }

/-- `inc_blocks_imported`. -/
def incBlocksImported (m : IvoryMetrics) : IvoryMetrics :=
  { m with blocksImported := m.blocksImported + 1 }

/-- `inc_blocks_produced`. -/
def incBlocksProduced (m : IvoryMetrics) : IvoryMetrics :=
  { m with blocksProduced := m.blocksProduced + 1 }

/-- `p2p_message`. -/
def p2pMessage (m : IvoryMetrics) (kind : String) : IvoryMetrics :=
  { m with p2pMessages := bump m.p2pMessages kind }

/-- `observe_produce_seconds`, given the first bucket whose bound the time does not exceed. -/
def observeProduceSeconds (m : IvoryMetrics) (bucket : Fin 12) : IvoryMetrics :=
  { m with produceBuckets := m.produceBuckets.modify bucket (· + 1),
           produceCount := m.produceCount + 1 }

/-- What `handle` counts.  A method that the endpoint does not allow is counted as a method that is
not found. -/
def count (m : IvoryMetrics) (method : String) : Except RpcError Value → IvoryMetrics
  | .ok _ => m.rpcRequest method
  | .error e => (m.rpcRequest method).rpcError method e.code

/-- What `GET /metrics` sets before it answers.  Without a head the gauges of the head stay. -/
def refresh (m : IvoryMetrics) (ctx : RpcContext) : IvoryMetrics :=
  ((ctx.chain.store.headBlock.elim m fun head =>
      m.setHead head.header.number head.header.timestamp).setTxpoolPending
    (UInt64.ofNat ctx.chain.pool.pending.size)).setP2pPeers (UInt64.ofNat ctx.peers)

/-- The metrics without the counters of requests and errors. -/
def uncounted (m : IvoryMetrics) : IvoryMetrics := { m with rpcRequests := ∅, rpcErrors := ∅ }

/-- What `GET /metrics` answers, but for the counters of requests and errors. -/
def seen (m : IvoryMetrics) (ctx : RpcContext) : IvoryMetrics := (m.refresh ctx).uncounted

end IvoryMetrics

/-- What the import and producer tasks write. -/
inductive MetricWrite
  | setHead (number timestamp : UInt64)
  | setTxpoolPending (n : UInt64)
  | setP2pPeers (n : UInt64)
  | incBlocksImported
  | incBlocksProduced
  | p2pMessage (kind : String)
  | observeProduceSeconds (bucket : Fin 12)

namespace MetricWrite

def apply (m : IvoryMetrics) : MetricWrite → IvoryMetrics
  | setHead number timestamp => m.setHead number timestamp
  | setTxpoolPending n => m.setTxpoolPending n
  | setP2pPeers n => m.setP2pPeers n
  | incBlocksImported => m.incBlocksImported
  | incBlocksProduced => m.incBlocksProduced
  | p2pMessage kind => m.p2pMessage kind
  | observeProduceSeconds bucket => m.observeProduceSeconds bucket

end MetricWrite

namespace IvoryMetrics

variable {m m' : IvoryMetrics} {ctx ctx' : RpcContext}

/-! ### What is seen -/

theorem seen_count (m : IvoryMetrics) (method : String) (result : Except RpcError Value)
    (ctx : RpcContext) : (m.count method result).seen ctx = m.seen ctx := by
  cases result <;> cases h : ctx.chain.store.headBlock <;> simp only [seen, refresh, h] <;> rfl

theorem seen_refresh (m : IvoryMetrics) (ctx : RpcContext) :
    (m.refresh ctx).seen ctx = m.seen ctx := by
  cases h : ctx.chain.store.headBlock <;> simp only [seen, refresh, h] <;> rfl

/-- Two metrics of which the same is seen. -/
structure Alike (ctx : RpcContext) (m m' : IvoryMetrics) : Prop where
  imported : m.blocksImported = m'.blocksImported
  produced : m.blocksProduced = m'.blocksProduced
  messages : m.p2pMessages = m'.p2pMessages
  buckets : m.produceBuckets = m'.produceBuckets
  times : m.produceCount = m'.produceCount
  head : ctx.chain.store.headBlock = none →
    m.headNumber = m'.headNumber ∧ m.headTimestamp = m'.headTimestamp

theorem seen_eq_iff : m.seen ctx = m'.seen ctx ↔ Alike ctx m m' := by
  cases hhead : ctx.chain.store.headBlock with
  | none =>
    simp only [seen, refresh, hhead, Option.elim_none, setTxpoolPending, setP2pPeers, uncounted,
      mk.injEq, true_and]
    constructor
    · rintro ⟨hn, ht, hi, hp, hm, hb, hc⟩
      exact ⟨hi, hp, hm, hb, hc, fun _ => ⟨hn, ht⟩⟩
    · intro h
      obtain ⟨hn, ht⟩ := h.head hhead
      exact ⟨hn, ht, h.imported, h.produced, h.messages, h.buckets, h.times⟩
  | some head =>
    simp only [seen, refresh, hhead, Option.elim_some, setHead, setTxpoolPending, setP2pPeers,
      uncounted, mk.injEq, true_and]
    constructor
    · rintro ⟨hi, hp, hm, hb, hc⟩
      exact ⟨hi, hp, hm, hb, hc, fun hnone => absurd (hhead.symm.trans hnone) nofun⟩
    · intro h
      exact ⟨h.imported, h.produced, h.messages, h.buckets, h.times⟩

namespace Alike

theorem of_head (h : Alike ctx m m')
    (hhead : ctx'.chain.store.headBlock = none → ctx.chain.store.headBlock = none) :
    Alike ctx' m m' :=
  { h with head := fun hnone => h.head (hhead hnone) }

theorem count (h : Alike ctx m m') (method : String) (result : Except RpcError Value) :
    Alike ctx (m.count method result) (m'.count method result) := by
  cases result <;> exact { h with }

theorem apply (h : Alike ctx m m') (w : MetricWrite) : Alike ctx (w.apply m) (w.apply m') := by
  cases w with
  | setHead number timestamp => exact { h with head := fun _ => ⟨rfl, rfl⟩ }
  | setTxpoolPending n => exact { h with }
  | setP2pPeers n => exact { h with }
  | incBlocksImported => exact { h with imported := congrArg (· + 1) h.imported }
  | incBlocksProduced => exact { h with produced := congrArg (· + 1) h.produced }
  | p2pMessage kind => exact { h with messages := congrArg (bump · kind) h.messages }
  | observeProduceSeconds bucket =>
    exact { h with buckets := congrArg (List.modify · bucket (· + 1)) h.buckets
                   times := congrArg (· + 1) h.times }

/-- **The other tasks act on what is seen.** -/
theorem writes (ws : List MetricWrite) : ∀ {m m' : IvoryMetrics}, Alike ctx m m' →
    Alike ctx (ws.foldl MetricWrite.apply m) (ws.foldl MetricWrite.apply m') := by
  induction ws with
  | nil => exact fun h => h
  | cons w ws ih => exact fun h => ih (h.apply w)

end Alike

end IvoryMetrics

end Ivory
