import Ivory.Node.Sync

/-!
# The traffic of catching up

Two nodes that deal with their messages in turns.  While the follower misses blocks, every message
that tells it of a block makes it ask for one, and every request is answered by two messages.

* `Node.sync_rounds`: **the messages double with every round until the last missing block arrives**;
  then the head is the tip, and after one more round nothing is on the way.
-/

namespace Ivory

open BlockStore

section

variable [Keccak] [Ed25519] [Wasmi]

section Nodes

variable {g : Genesis} {L : Line g} {T : List Block} {n : Node}

/-! ### The source -/

theorem Node.answers (source : Node) (k : IterOrder Block) (as : Set Block)
    (hstores : ∀ y ∈ as, source.Stores y) (ms : List NetworkMessage)
    (hms : ∀ m ∈ ms, ∃ y ∈ as, m = .getBlock y.hash) :
    ∃ out, Gossip.handleAll Node.react k source ms = some (source, out)
      ∧ out.length = 2 * ms.length ∧ (∀ o ∈ out, ∃ y ∈ as, o.Offers y)
      ∧ ∀ y ∈ as, .getBlock y.hash ∈ ms → .block y ∈ out := by
  obtain ⟨⟨m', out⟩, heq, hm', hlen, hoff, hans⟩ := Gossip.handleAll_rule Node.react k
    (I := fun done out m => m = source ∧ out.length = 2 * done.length
      ∧ (∀ o ∈ out, ∃ y ∈ as, o.Offers y)
      ∧ ∀ y ∈ as, .getBlock y.hash ∈ done → .block y ∈ out) ms [] [] source
    (by
      rintro done out m msg hmsg ⟨rfl, hlen, hoff, hans⟩
      obtain ⟨y, hy, rfl⟩ := hms msg hmsg
      have hreact : m.react k (.getBlock y.hash) = some (m, [.header y.header, .block y]) := by
        rw [Node.react, hstores y hy]
      refine ⟨_, hreact, rfl, by simp [hlen]; omega, fun o ho => ?_, fun z hz hmem => ?_⟩
      · rcases List.mem_append.mp ho with ho | ho
        · exact hoff o ho
        · rcases List.mem_cons.mp ho with rfl | ho
          · exact ⟨y, hy, .inl rfl⟩
          · exact ⟨y, hy, .inr (List.mem_singleton.mp ho)⟩
      · rcases List.mem_append.mp hmem with hmem | hmem
        · exact List.mem_append_left _ (hans z hz hmem)
        · -- the same hash is the same stored block
          have hhash : z.hash = y.hash := NetworkMessage.getBlock.inj (List.mem_singleton.mp hmem)
          have hzy : z = y := by
            have hz' := hstores z hz
            rw [Node.Stores, hhash, hstores y hy] at hz'
            exact (Option.some.inj hz').symm
          rw [hzy]
          simp)
    ⟨rfl, rfl, by simp, by simp⟩
  rw [List.nil_append] at hlen hoff hans
  rw [List.nil_append] at hans
  cases hm'
  exact ⟨out, heq, hlen, hoff, hans⟩

/-! ### While blocks are missing -/

/-- The messages to a follower with the chain state `cs` have come down to the block `b`: the blocks
`pre` above it wait, and every message tells of one of these. -/
structure Wave (L : Line g) (cs : ChainState) (pre : List Block) (b : Block) (n : Node)
    (ms : List NetworkMessage) : Prop where
  chain : n.chain = cs
  fed : ∃ D, L.Fed D n ∧ pre ⊆ D
  offers : ∀ m ∈ ms, ∃ y ∈ pre ++ [b], m.Offers y
  block : .block b ∈ ms
  length : ms.length = 2 ^ (pre.length + 1)

section Wave

variable {cs : ChainState} {pre tl : List Block} {b c : Block}

/-- **While a block below is missing, every message makes the follower ask for one block.** -/
theorem Line.Fed.ask {D : List Block} (hf : L.Fed D n) (heq : L.blocks = pre ++ b :: c :: tl)
    (hc : n.chain.store.getBlock c.hash = none) {y : Block} (hy : y ∈ pre ++ [b])
    {m : NetworkMessage} (hm : m.Offers y) (k : IterOrder Block) :
    ∃ n' D' o, n.react k m = some (n', [o]) ∧ n'.chain = n.chain ∧ L.Fed D' n' ∧ D ⊆ D'
      ∧ (∃ q ∈ pre ++ [b] ++ [c], o = .getBlock q.hash)
      ∧ (m = .block b → b ∈ D' ∧ o = .getBlock c.hash) := by
  have heq' : L.blocks = (pre ++ [b]) ++ c :: tl := by rw [heq]; simp
  have hmissing : ∀ q ∈ pre ++ [b] ++ [c], n.chain.store.getBlock q.hash = none := by
    intro q hq
    rcases List.mem_append.mp hq with hq | hq
    · exact hf.missing_above heq' hc q hq
    · rw [List.mem_singleton.mp hq]
      exact hc
  rcases hm with rfl | rfl
  · refine ⟨n, D, .getBlock y.hash, ?_, rfl, hf, List.Subset.refl D,
      ⟨y, List.mem_append_left _ hy, rfl⟩, nofun⟩
    have hno : n.chain.store.getBlock y.header.hash = none :=
      hmissing y (List.mem_append_left _ hy)
    rw [Node.react, hno]
    rfl
  · -- the parent of `y` is the next block of the list, and it is missing
    obtain ⟨pre₁, q, ws, hnext, hq⟩ : ∃ pre₁ q ws, L.blocks = pre₁ ++ y :: q :: ws
        ∧ q ∈ pre ++ [b] ++ [c] := by
      obtain ⟨pre₁, pre₂, hsplit⟩ := List.append_of_mem hy
      cases pre₂ with
      | nil => exact ⟨pre₁, c, tl, by rw [heq', hsplit]; simp, by simp⟩
      | cons q pre₂ =>
        refine ⟨pre₁, q, pre₂ ++ c :: tl, by rw [heq', hsplit]; simp, ?_⟩
        rw [hsplit]
        simp
    have hyabove : y ∈ L.above := L.mem_above hnext (by simp)
    obtain ⟨hrec, hreq⟩ := hf.receive_of_missing hnext (hmissing q hq) k
    have hreact : n.react k (.block y) = some (n.addOrphan y, [.getBlock q.hash]) := by
      rw [Node.react, hrec]
      simp [hreq]
    obtain ⟨r, D', hr, hreacts⟩ := hf.react hyabove (.inl (.inr rfl)) k
    rw [hreact] at hr
    cases hr
    refine ⟨_, D', _, hreact, rfl, hreacts.fed, hreacts.subset, ⟨q, hq, rfl⟩, fun hyb => ?_⟩
    cases hyb
    refine ⟨(hreacts.block pre₁ b q ws hnext rfl).1, ?_⟩
    obtain ⟨_, _, _, _, ha⟩ := L.history.acceptedOn hnext
    obtain ⟨_, _, _, _, ha'⟩ := L.history.acceptedOn heq
    rw [← ha.parent, ha'.parent]

/-- **A round with a missing block below: twice as many messages, one block further down.** -/
theorem Wave.round {ms : List NetworkMessage} (hw : Wave L cs pre b n ms)
    (heq : L.blocks = pre ++ b :: c :: tl) (hc : cs.store.getBlock c.hash = none) {source : Node}
    (hsource : ∀ y ∈ L.blocks, source.Stores y) (k : IterOrder Block) :
    ∃ n' ms', Gossip.round Node.react k (.pair n source ms []) = some (.pair n' source ms' [])
      ∧ Wave L cs (pre ++ [b]) c n' ms' := by
  obtain ⟨D, hf, hD⟩ := hw.fed
  obtain ⟨⟨n', out⟩, hturn, hchain, ⟨D', hf', hD', hb'⟩, hlen, hasks, hask⟩ :=
    Gossip.handleAll_rule Node.react k
      (I := fun done out n' => n'.chain = cs
        ∧ (∃ D', L.Fed D' n' ∧ pre ⊆ D' ∧ (.block b ∈ done → b ∈ D'))
        ∧ out.length = done.length
        ∧ (∀ o ∈ out, ∃ q ∈ pre ++ [b] ++ [c], o = .getBlock q.hash)
        ∧ (.block b ∈ done → .getBlock c.hash ∈ out)) ms [] [] n
      (by
        rintro done out n' m hm ⟨hchain, ⟨D', hf', hD', hb'⟩, hlen, hasks, hask⟩
        obtain ⟨y, hy, hoff⟩ := hw.offers m hm
        obtain ⟨n₁, D₁, o, hr, hchain₁, hf₁, hsub, hq, hblock⟩ :=
          hf'.ask heq (hchain ▸ hc) hy hoff k
        have hdone : ∀ {P : Prop}, (.block b ∈ done → P) → (m = .block b → P) →
            .block b ∈ done ++ [m] → P := by
          intro P h₁ h₂ h
          rcases List.mem_append.mp h with h | h
          · exact h₁ h
          · exact h₂ (List.mem_singleton.mp h).symm
        refine ⟨_, hr, hchain₁.trans hchain, ⟨D₁, hf₁, fun z hz => hsub (hD' hz), ?_⟩,
          by simp [hlen], fun o' ho' => ?_, ?_⟩
        · exact hdone (fun h => hsub (hb' h)) fun h => (hblock h).1
        · rcases List.mem_append.mp ho' with ho' | ho'
          · exact hasks o' ho'
          · rw [List.mem_singleton.mp ho']
            exact hq
        · refine hdone (fun h => List.mem_append_left _ (hask h)) fun h => ?_
          rw [(hblock h).2]
          simp)
      ⟨hw.chain, ⟨D, hf, hD, by simp⟩, rfl, by simp, by simp⟩
  rw [List.nil_append] at hb' hlen hasks hask
  rw [List.nil_append] at hlen hask
  obtain ⟨out', hturn', hlen', hoff', hans'⟩ := Node.answers source k
    { y | y ∈ pre ++ [b] ++ [c] }
    (fun y hy => hsource y (by
      rw [heq]
      simp only [Set.mem_ofPred_eq, List.mem_append, List.mem_singleton] at hy
      rcases hy with (hy | hy) | hy <;> simp [hy])) out hasks
  refine ⟨n', out', Gossip.round_pair _ hturn hturn', hchain, ⟨D', hf', ?_⟩, hoff', ?_, ?_⟩
  · intro y hy
    rcases List.mem_append.mp hy with hy | hy
    · exact hD' hy
    · rw [List.mem_singleton.mp hy]
      exact hb' hw.block
  · exact hans' c (by simp) (hask hw.block)
  · rw [hlen', hlen, hw.length, List.length_append, List.length_singleton, pow_succ' 2 (_ + 1)]

end Wave

/-! ### The last missing block -/

/-- The follower has the tip, and the messages to it tell of blocks it has. -/
structure Level (L : Line g) (tip : Block) (n : Node) (ms : List NetworkMessage) : Prop where
  fed : ∃ D, L.Fed D n
  tip : n.Stores tip
  offers : ∀ m ∈ ms, ∃ y ∈ L.above, m.Offers y

section Level

variable {tip : Block} {zs : List Block}

/-- **The round in which the last missing block arrives.** -/
theorem Wave.last {cs : ChainState} {pre tl : List Block} {b p : Block} {ms : List NetworkMessage}
    (hw : Wave L cs pre b n ms) (htip : L.blocks = tip :: zs)
    (heq : L.blocks = pre ++ b :: p :: tl) (hp : n.Stores p) {source : Node}
    (hsource : ∀ y ∈ L.blocks, source.Stores y) (k : IterOrder Block) :
    ∃ n' ms', Gossip.round Node.react k (.pair n source ms []) = some (.pair n' source ms' [])
      ∧ Level L tip n' ms' := by
  obtain ⟨D, hf, hD⟩ := hw.fed
  have hpz : p ∈ L.blocks := by rw [heq]; simp
  have habove : ∀ y ∈ pre ++ [b], y ∈ L.above := by
    intro y hy
    obtain ⟨pre₁, pre₂, hsplit⟩ := List.append_of_mem hy
    have hline : L.blocks = pre₁ ++ y :: (pre₂ ++ p :: tl) := by
      rw [heq, show pre ++ b :: p :: tl = (pre ++ [b]) ++ p :: tl by simp, hsplit]
      simp
    exact L.mem_above hline (by simp)
  obtain ⟨⟨n', out⟩, hturn, ⟨D', hf', hD', hp', hb'⟩, hasks⟩ :=
    Gossip.handleAll_rule Node.react k
      (I := fun done out n' =>
        (∃ D', L.Fed D' n' ∧ pre ⊆ D' ∧ n'.Stores p ∧ (.block b ∈ done → b ∈ D'))
        ∧ ∀ o ∈ out, ∃ q ∈ L.above, o = .getBlock q.hash) ms [] [] n
      (by
        rintro done out n' m hm ⟨⟨D', hf', hD', hp', hb'⟩, hasks⟩
        obtain ⟨y, hy, hoff⟩ := hw.offers m hm
        obtain ⟨r, D₁, hr, hreacts⟩ := hf'.react (habove y hy) (.inl hoff) k
        refine ⟨r, hr, ⟨D₁, hreacts.fed, fun z hz => hreacts.subset (hD' hz),
          hreacts.fed.stores_of_grows hreacts.grows hpz hp', fun h => ?_⟩, fun o ho => ?_⟩
        · rcases List.mem_append.mp h with h | h
          · exact hreacts.subset (hb' h)
          · exact (hreacts.block pre b p tl heq (List.mem_singleton.mp h).symm).1
        · rcases List.mem_append.mp ho with ho | ho
          · exact hasks o ho
          · exact hreacts.asks y hoff o ho)
      ⟨⟨D, hf, hD, hp, by simp⟩, by simp⟩
  rw [List.nil_append] at hb' hasks
  have hb : n'.Stores b := hf'.stores_of_parent heq (hb' hw.block) hp'
  obtain ⟨out', hturn', -, hoff', -⟩ := Node.answers source k L.above
    (fun y hy => hsource y hy.1) out hasks
  exact ⟨n', out', Gossip.round_pair _ hturn hturn', ⟨D', hf'⟩,
    CatchingUp.stores_tip hf' htip heq hD' hb, hoff'⟩

theorem Line.Fed.react_stored {D : List Block} (hf : L.Fed D n) (htip : L.blocks = tip :: zs)
    (hs : n.Stores tip) {y : Block} (hy : y ∈ L.above) {m : NetworkMessage} (hm : m.Offers y)
    (k : IterOrder Block) : ∃ n' D', n.react k m = some (n', []) ∧ L.Fed D' n' ∧ n'.Stores tip := by
  have hall := hf.stores_all htip hs
  rcases hm with rfl | rfl
  · refine ⟨n, D, ?_, hf, hs⟩
    have hstored : n.chain.store.getBlock y.header.hash = some y := hall y hy.1
    rw [Node.react, hstored]
    rfl
  · obtain ⟨r, D', hr, hreacts⟩ := hf.react hy (.inl (.inr rfl)) k
    have hrec : ∃ e, n.receive k y = some (n.refuse y e, [⟨n.chain, y⟩]) := by
      rcases Node.importBlock_cases hf.inv k n.orphans.size y with
        ⟨e, -, heq⟩ | ⟨_, _, _, _, _, _, _, -, ha, -⟩
      · exact ⟨e, heq⟩
      · have hfresh := ha.insertable.fresh
        rw [hall y hy.1] at hfresh
        cases hfresh
    obtain ⟨e, hrec⟩ := hrec
    have hnone : ImportCall.request ⟨n.chain, y⟩ = none := by
      cases hreq : ImportCall.request ⟨n.chain, y⟩ with
      | none => rfl
      | some hash =>
        obtain ⟨hpar, hno⟩ := Delivering.request_missing hf hreq
        obtain ⟨pre, p, ws, heq, hp⟩ := L.exists_parent hy
        rw [hpar, hp, hall p (by rw [heq]; simp)] at hno
        cases hno
    have hreact : n.react k (.block y) = some (n.refuse y e, []) := by
      rw [Node.react, hrec]
      simp [hnone]
    rw [hreact] at hr
    cases hr
    exact ⟨_, D', hreact, hreacts.fed,
      hreacts.fed.stores_of_grows hreacts.grows (by rw [htip]; simp) hs⟩

/-- **Once the follower has the tip, one more round empties the mail.** -/
theorem Level.round {ms : List NetworkMessage} (hl : Level L tip n ms)
    (htip : L.blocks = tip :: zs) (source : Node) (k : IterOrder Block) :
    ∃ n', Gossip.round Node.react k (.pair n source ms []) = some (.pair n' source [] [])
      ∧ Level L tip n' [] := by
  obtain ⟨D, hf⟩ := hl.fed
  obtain ⟨⟨n', out⟩, hturn, hfed', htip', hout⟩ := Gossip.handleAll_rule Node.react k
    (I := fun _ out n' => (∃ D', L.Fed D' n') ∧ n'.Stores tip ∧ out = []) ms [] [] n
    (by
      rintro done out n' m hm ⟨⟨D', hf'⟩, hs', rfl⟩
      obtain ⟨y, hy, hoff⟩ := hl.offers m hm
      obtain ⟨n₁, D₁, hr, hf₁, hs₁⟩ := hf'.react_stored htip hs' hy hoff k
      exact ⟨_, hr, ⟨D₁, hf₁⟩, hs₁, rfl⟩)
    ⟨⟨D, hf⟩, hl.tip, rfl⟩
  rw [List.nil_append] at hout
  cases hout
  exact ⟨n', Gossip.round_pair _ hturn rfl, hfed', htip', by simp⟩

end Level

/-! ### Rounds -/

/-- Rounds one after the other. -/
def Node.rounds (x : Gossip Bool Node NetworkMessage) (ks : List (IterOrder Block)) :
    Option (Gossip Bool Node NetworkMessage) :=
  ks.foldlM (fun x k => Gossip.round Node.react k x) x

section Rounds

variable {tip p : Block} {zs low : List Block} {cs : ChainState} {source : Node}

theorem Node.rounds_cons {x x' : Gossip Bool Node NetworkMessage} {k : IterOrder Block}
    {ks : List (IterOrder Block)} (h : Gossip.round Node.react k x = some x') :
    Node.rounds x (k :: ks) = Node.rounds x' ks := by
  rw [rounds, List.foldlM_cons, h]
  rfl

theorem Wave.run (hsource : ∀ y ∈ L.blocks, source.Stores y) : ∀ (ks : List (IterOrder Block))
    {mid pre : List Block} {b : Block} {n : Node} {ms : List NetworkMessage},
    Wave L cs pre b n ms → L.blocks = pre ++ b :: (mid ++ p :: low) →
    (∀ c ∈ mid, cs.store.getBlock c.hash = none) → ks.length ≤ mid.length →
    ∃ mid' pre' b' n' ms', Node.rounds (.pair n source ms []) ks = some (.pair n' source ms' [])
      ∧ Wave L cs pre' b' n' ms' ∧ L.blocks = pre' ++ b' :: (mid' ++ p :: low)
      ∧ mid'.length + ks.length = mid.length ∧ pre'.length = pre.length + ks.length := by
  intro ks
  induction ks with
  | nil =>
    intro mid pre b n ms hw heq _ _
    exact ⟨mid, pre, b, n, ms, rfl, hw, heq, rfl, rfl⟩
  | cons k ks ih =>
    intro mid pre b n ms hw heq hmissing hlen
    cases mid with
    | nil => simp at hlen
    | cons c mid =>
      obtain ⟨n₁, ms₁, hr, hw₁⟩ :=
        hw.round heq (hmissing c List.mem_cons_self) hsource k
      obtain ⟨mid', pre', b', n', ms', hrun, hw', heq', hmid, hpre⟩ :=
        ih hw₁ (by rw [heq]; simp) (fun c hc => hmissing c (List.mem_cons_of_mem _ hc))
          (by simpa using hlen)
      refine ⟨mid', pre', b', n', ms', ?_, hw', heq', ?_, ?_⟩
      · rw [Node.rounds_cons hr, hrun]
      · rw [List.length_cons, List.length_cons]
        omega
      · rw [hpre, List.length_append, List.length_singleton, List.length_cons]
        omega

theorem Level.run (htip : L.blocks = tip :: zs) (source : Node) :
    ∀ (ks : List (IterOrder Block)) {n : Node} {ms : List NetworkMessage}, Level L tip n ms →
    ∃ n' ms', Node.rounds (.pair n source ms []) ks = some (.pair n' source ms' [])
      ∧ Level L tip n' ms' ∧ (ms = [] ∨ ks ≠ [] → ms' = []) := by
  intro ks
  induction ks with
  | nil =>
    intro n ms hl
    exact ⟨n, ms, rfl, hl, fun h => h.resolve_right (by simp)⟩
  | cons k ks ih =>
    intro n ms hl
    obtain ⟨n₁, hr, hl₁⟩ := hl.round htip source k
    obtain ⟨n', ms', hrun, hl', hms'⟩ := ih hl₁
    exact ⟨n', ms', by rw [Node.rounds_cons hr, hrun], hl', fun _ => hms' (.inl rfl)⟩

/-- **Catching up doubles the traffic with every block.**  A follower has its head at `p`, `high`
are the blocks above it up to the tip, and the source announces the tip; neither of the two drops
bodies of the line, and nothing else is on the way.  The two deal with their messages in turns.  As
long as fewer rounds have passed than blocks are missing, each round has doubled the messages to the
follower, and its head has not moved.  After as many rounds as blocks are missing its head is the
tip, and after one more round nothing is on the way. -/
theorem Node.sync_rounds (L : Line g) {high : List Block}
    (hline : L.blocks = (tip :: high) ++ p :: low) {follower : Node}
    (hfollower : L.Holds follower) (hhead : follower.chain.store.head = some p.hash)
    (hsource : L.Holds source) (hsrc : source.Stores tip) (ks : List (IterOrder Block)) :
    ∃ n ms, Node.rounds (.pair follower source [.header tip.header, .block tip] []) ks
        = some (.pair n source ms [])
      ∧ (ks.length < (tip :: high).length →
          ms.length = 2 ^ (ks.length + 1) ∧ n.chain.store.head = some p.hash)
      ∧ ((tip :: high).length ≤ ks.length → n.chain.store.head = some tip.hash)
      ∧ ((tip :: high).length < ks.length → ms = []) := by
  obtain ⟨archive, archiveKeep, ds, calls, hkeep, hds, hn⟩ := hfollower
  have hf : L.Fed _ follower := .of_deliver hkeep hds hn
  obtain ⟨archive', archiveKeep', ds', calls', hkeep', hds', hn'⟩ := hsource
  have hall := (Line.Fed.of_deliver hkeep' hds' hn').stores_all hline hsrc
  -- the blocks above the head of the follower are missing
  have hmissing : ∀ c ∈ tip :: high, follower.chain.store.getBlock c.hash = none :=
    (Delivering.of_head hf hline hhead).2
  have hstart : Wave L follower.chain [] tip follower [.header tip.header, .block tip] :=
    ⟨rfl, ⟨_, hf, List.nil_subset _⟩, by simp [NetworkMessage.Offers], by simp, rfl⟩
  by_cases hlt : ks.length ≤ high.length
  · obtain ⟨mid', pre', b', n', ms', hrun, hw, -, -, hpre⟩ := Wave.run hall ks hstart hline
      (fun c hc => hmissing c (List.mem_cons_of_mem _ hc)) hlt
    refine ⟨n', ms', hrun, fun _ => ⟨?_, ?_⟩, fun h => ?_, fun h => ?_⟩
    · rw [hw.length, hpre, List.length_nil, zero_add]
    · rw [hw.chain, hhead]
    · simp only [List.length_cons] at h
      omega
    · simp only [List.length_cons] at h
      omega
  · -- the rounds of the wave, the round that brings the last block, and the rest
    obtain ⟨ks₁, k, ks₂, rfl, hlen⟩ : ∃ ks₁ k ks₂, ks = ks₁ ++ k :: ks₂
        ∧ ks₁.length = high.length := by
      refine ⟨ks.take high.length, ks[high.length], ks.drop (high.length + 1), ?_, ?_⟩
      · rw [← List.drop_eq_getElem_cons, List.take_append_drop]
      · rw [List.length_take]
        omega
    obtain ⟨mid', pre', b', n₁, ms₁, hrun₁, hw, heq, hmid, -⟩ := Wave.run hall ks₁ hstart hline
      (fun c hc => hmissing c (List.mem_cons_of_mem _ hc)) hlen.le
    have hnil : mid' = [] := List.length_eq_zero_iff.mp (by omega)
    rw [hnil, List.nil_append] at heq
    have hp : n₁.Stores p := by
      rw [Node.Stores, hw.chain]
      exact (Delivering.of_head hf hline hhead).1
    obtain ⟨n₂, ms₂, hrun₂, hl⟩ := hw.last hline heq hp hall k
    obtain ⟨n₃, ms₃, hrun₃, hl₃, hms₃⟩ := Level.run hline source ks₂ hl
    obtain ⟨D, hf₃⟩ := hl₃.fed
    refine ⟨n₃, ms₃, ?_, fun h => ?_, fun _ => ?_, fun h => ?_⟩
    · rw [Node.rounds, List.foldlM_append]
      rw [Node.rounds] at hrun₁
      rw [hrun₁, Option.bind_eq_bind, Option.bind_some, ← Node.rounds, Node.rounds_cons hrun₂,
        hrun₃]
    · simp only [List.length_append, List.length_cons] at h
      omega
    · exact Delivering.head_of_stores hf₃ hline hl₃.tip
    · refine hms₃ (.inr fun hks => ?_)
      rw [hks] at h
      simp only [List.length_append, List.length_cons, List.length_nil] at h
      omega

end Rounds

end Nodes

end

namespace Devnet

/-- A node that starts and two missing blocks: eight messages after two rounds, none after three. -/
theorem sync_rounds_lineA : ∃ n, Node.rounds (.pair (nodeWith []) (nodeWith [blockA, childA])
      [.header childA.header, .block childA] []) [inOrder, inOrder, inOrder]
        = some (.pair n (nodeWith [blockA, childA]) [] [])
      ∧ n.chain.store.head = some childA.hash := by
  have heval : (nodeWith [blockA, childA]).Stores childA
      ∧ (nodeWith []).chain.store.head = some genesisBlock.hash
      ∧ blockA ≠ genesisBlock ∧ childA ≠ genesisBlock := by decide +kernel
  obtain ⟨hsrc, hhead, hA, hc⟩ := heval
  have hAabove : blockA ∈ lineA.above := ⟨by simp [lineA], hA⟩
  have hcabove : childA ∈ lineA.above := ⟨by simp [lineA], hc⟩
  have hline : lineA.blocks = (childA :: [blockA]) ++ genesisBlock :: [] := rfl
  obtain ⟨n, ms, hrun, -, hdone, hquiet⟩ := Node.sync_rounds lineA hline
    (holds_nodeWith [] (by simp)) hhead
    (holds_nodeWith [blockA, childA] (by simp [hAabove, hcabove])) hsrc [inOrder, inOrder, inOrder]
  rw [hquiet (by simp)] at hrun
  exact ⟨n, hrun, hdone (by simp)⟩

end Devnet

end Ivory
