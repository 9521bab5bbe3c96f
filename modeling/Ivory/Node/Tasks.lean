import Ivory.Base.Interleaving
import Ivory.Node.Readmission

/-!
# Two tasks, one chain

The producer task and the import task call `import_and_apply` on the same store,
live state and pool, and nothing orders their steps.  `ImportTask` says where a
call is; the calls to the store, the live state and the pool are the steps.

A call resets the live state to the block whose insertion moved the head.  In
between another call can insert a block that takes the head and reset the live
state to it; the late reset then puts back the state of a block that is no longer
the head (`Devnet.stale_reset`).

* `ImportTask.alone`: a call that is not disturbed is `ChainState.importAndApply`.
* `ImportTask.live_of_current`: **if no late reset is the last one, the live state is the state
  of the head when the calls are done.**
-/

namespace Ivory

open BlockStore Interleaving

/-- Where a call of `import_and_apply` is, with what it has read. -/
inductive ImportTask
  | started (block : Block)
  | checked (block : Block) (trial : StateDB)
  | inserted (trial : StateDB) (outcome : InsertOutcome)
  | recorded (outcome : InsertOutcome)
  | fetched (outcome : InsertOutcome) (post : StateDB)
  | applied (outcome : InsertOutcome)
  | readOld (outcome : InsertOutcome) (oldTxs : List Transaction)
  | moving (outcome : InsertOutcome) (newHashes : List H256) (oldTxs newTxs : List Transaction)
  | finished (result : Except ChainError InsertOutcome)

namespace ImportTask

section

variable [Keccak] [Ed25519] [Wasmi]

/-- The next step of a call. -/
def act (cs : ChainState) : ImportTask → ChainState × ImportTask
  | started block =>
    match cs.store.stateAt block.header.parentHash with
    | none => (cs, finished (.error .unknownParentState))
    | some parentState =>
      -- the execution is on the call's own copy
      match executeBlock parentState block with
      | .error e => (cs, finished (.error (.execution e)))
      | .ok (_, trial, _) =>
        let (root, trial) := trial.rootHash
        if root ≠ block.header.stateRoot then (cs, finished (.error .invalidStateRoot))
        else (cs, checked block trial)
  | checked block trial =>
    match cs.store.insertBlock block with
    | (.error e, store) => ({ cs with store := store }, finished (.error e))
    | (.ok outcome, store) => ({ cs with store := store }, inserted trial outcome)
  | inserted trial outcome =>
    ({ cs with store := cs.store.recordState outcome.hash trial.fork },
      if outcome.headChanged then recorded outcome else finished (.ok outcome))
  | recorded outcome =>
    match cs.store.stateAt outcome.newHead with
    | some post => (cs, fetched outcome post)
    | none => (cs, applied outcome)
  | fetched outcome post => ({ cs with live := cs.live.resetFrom post }, applied outcome)
  | applied outcome => (cs, readOld outcome ((outcome.oldHead.map cs.store.txsOnPath).getD []))
  | readOld outcome oldTxs =>
    let newTxs := cs.store.txsOnPath outcome.newHead
    (cs, moving outcome (newTxs.map Transaction.hash) oldTxs newTxs)
  | moving outcome newHashes (tx :: oldTxs) newTxs =>
    (if tx.hash ∈ newHashes then cs
      else { cs with pool := (cs.pool.addTransaction tx .local).2 },
      moving outcome newHashes oldTxs newTxs)
  | moving outcome newHashes [] (tx :: newTxs) =>
    ({ cs with pool := cs.pool.remove tx.hash }, moving outcome newHashes [] newTxs)
  | moving outcome _ [] [] => (cs, finished (.ok outcome))
  | finished result => (cs, finished result)

/-! ### A call on its own -/

theorem leads_removing (outcome : InsertOutcome) (newHashes : List H256) :
    ∀ (newTxs : List Transaction) (cs : ChainState),
      Leads act (cs, moving outcome newHashes [] newTxs)
        ({ cs with pool := newTxs.foldl (fun pool tx => pool.remove tx.hash) cs.pool },
          finished (.ok outcome)) := by
  intro newTxs
  induction newTxs with
  | nil => exact fun cs => .step (.refl _)
  | cons tx newTxs ih => exact fun cs => .step (ih { cs with pool := cs.pool.remove tx.hash })

theorem leads_moving (outcome : InsertOutcome) (newHashes : List H256) (newTxs : List Transaction) :
    ∀ (oldTxs : List Transaction) (cs : ChainState),
      Leads act (cs, moving outcome newHashes oldTxs newTxs)
        ({ cs with
          pool := newTxs.foldl (fun pool tx => pool.remove tx.hash)
            (oldTxs.foldl (fun pool tx => if tx.hash ∈ newHashes then pool
              else (pool.addTransaction tx .local).2) cs.pool) }, finished (.ok outcome)) := by
  intro oldTxs
  induction oldTxs with
  | nil => exact fun cs => leads_removing outcome newHashes newTxs cs
  | cons tx oldTxs ih =>
    intro cs
    refine .step ?_
    simp only [act, List.foldl_cons]
    by_cases hm : tx.hash ∈ newHashes
    · rw [if_pos hm, if_pos hm]
      exact ih cs
    · rw [if_neg hm, if_neg hm]
      exact ih { cs with pool := (cs.pool.addTransaction tx .local).2 }

theorem leads_recorded (cs : ChainState) (outcome : InsertOutcome) :
    Leads act (cs, recorded outcome) (cs.applyHeadChange outcome, finished (.ok outcome)) := by
  refine .step ?_
  unfold ChainState.applyHeadChange
  simp only [act]
  cases hs : cs.store.stateAt outcome.newHead with
  | none => exact .step (.step (leads_moving ..))
  | some post => exact .step (.step (.step (leads_moving ..)))

/-- **A call that is not disturbed is `import_and_apply`.** -/
theorem leads_started (cs : ChainState) (b : Block) :
    Leads act (cs, started b) ((cs.importAndApply b).2, finished (cs.importAndApply b).1) := by
  refine .step ?_
  unfold ChainState.importAndApply
  simp only [act]
  cases hs : cs.store.stateAt b.header.parentHash with
  | none => exact .refl _
  | some parentState =>
    simp only
    cases hx : executeBlock parentState b with
    | error e => exact .refl _
    | ok r =>
      obtain ⟨outs, trial, ctx⟩ := r
      simp only
      by_cases hroot : trial.rootHash.1 = b.header.stateRoot
      · rw [if_neg (not_not.mpr hroot), if_neg (not_not.mpr hroot)]
        refine .step ?_
        simp only [act]
        rcases cs.store.insertBlock b with ⟨e | outcome, store⟩
        · exact .refl _
        · refine .step ?_
          simp only [act]
          cases outcome.headChanged with
          | true => exact leads_recorded _ _
          | false => exact .refl _
      · rw [if_pos hroot, if_pos hroot]
        exact .refl _

/-- The steps of one call in a row are an import, whatever the other calls have done. -/
theorem alone {ι : Type} [DecidableEq ι] (c : Interleaving ι ChainState ImportTask) (i : ι)
    (b : Block) (hi : c.calls i = started b) : ∃ n, c.run act (List.replicate n i)
      = ⟨(c.shared.importAndApply b).2,
        Function.update c.calls i (finished (c.shared.importAndApply b).1)⟩ :=
  run_of_leads (hi ▸ leads_started c.shared b)

end

/-! ### Pending resets -/

/-- The outcome of the insertion, while the live state may have to be reset to it. -/
def pending : ImportTask → Option InsertOutcome
  | inserted _ outcome => some outcome
  | recorded outcome => some outcome
  | fetched outcome _ => some outcome
  | _ => none

/-- The call will reset the live state to the state of this block. -/
def WillReset (call : ImportTask) (h : H256) : Prop :=
  ∃ outcome, call.pending = some outcome ∧ outcome.headChanged = true ∧ outcome.newHead = h

instance (call : ImportTask) (h : H256) : Decidable (call.WillReset h) :=
  match hp : call.pending with
  | none => isFalse fun hw => by
    obtain ⟨o, ho, -⟩ := hw
    rw [hp] at ho
    cases ho
  | some o => decidable_of_iff (o.headChanged = true ∧ o.newHead = h) <| by
    refine ⟨fun ho => ⟨o, hp, ho⟩, fun ⟨o', ho', hw⟩ => ?_⟩
    cases hp.symm.trans ho'
    exact hw

/-- What is known of a call between the insertion of its block and its reset. -/
structure Sound (store : BlockStore) (call : ImportTask) : Prop where
  stored : ∀ o, call.pending = some o → (store.getBlock o.hash).isSome
  moved : ∀ o, call.pending = some o → o.headChanged = true → o.newHead = o.hash
  stayed : ∀ o, call.pending = some o → o.headChanged = false → store.head ≠ some o.hash
  recorded : ∀ o, call = .recorded o →
    o.headChanged = true ∧ (store.snapshots[o.hash]?).isSome
  fetched : ∀ o post, call = .fetched o post →
    o.headChanged = true ∧ store.snapshots[o.hash]? = some post

theorem Sound.of_pending_none {store : BlockStore} {call : ImportTask}
    (h : call.pending = none) : Sound store call where
  stored o ho := by rw [h] at ho; cases ho
  moved o ho := by rw [h] at ho; cases ho
  stayed o ho := by rw [h] at ho; cases ho
  recorded o ho := by rw [ho] at h; cases h
  fetched o post ho := by rw [ho] at h; cases h

/-- Steps of other calls: blocks are only added, a new head is a new block, and the snapshot of the
block of this call is left alone. -/
theorem Sound.mono {store store' : BlockStore} {call : ImportTask} (hs : Sound store call)
    (hstored : ∀ h, (store.getBlock h).isSome → (store'.getBlock h).isSome)
    (hhead : store'.head = store.head ∨ ∃ h, store'.head = some h ∧ store.getBlock h = none)
    (hsnap : ∀ o, call.pending = some o → store'.snapshots[o.hash]? = store.snapshots[o.hash]?) :
    Sound store' call where
  stored o ho := hstored _ (hs.stored o ho)
  moved := hs.moved
  stayed o ho hm hh := by
    rcases hhead with heq | ⟨h, heq, hnew⟩
    · exact hs.stayed o ho hm (heq ▸ hh)
    · obtain rfl : h = o.hash := Option.some.inj (heq.symm.trans hh)
      have hsome := hs.stored o ho
      rw [hnew] at hsome
      cases hsome
  recorded o ho := by
    rw [hsnap o (by rw [ho]; rfl)]
    exact hs.recorded o ho
  fetched o post ho := by
    rw [hsnap o (by rw [ho]; rfl)]
    exact hs.fetched o post ho

/-- The live state is the state of the head. -/
def Synced (cs : ChainState) : Prop :=
  ∃ h, cs.store.head = some h ∧ cs.store.snapshots[h]? = some cs.live

/-- **The invariant of all interleavings.**  The live state is the state of the head, or a call is
on its way to reset it to that. -/
structure Inv {ι : Type} [Keccak] (c : Interleaving ι ChainState ImportTask) : Prop where
  store : StoreInv c.shared.store
  sound : ∀ i, Sound c.shared.store (c.calls i)
  distinct : ∀ i j oi oj, i ≠ j → (c.calls i).pending = some oi → (c.calls j).pending = some oj →
    oi.hash ≠ oj.hash
  live : Synced c.shared
    ∨ ∃ h, c.shared.store.head = some h ∧ ∃ i, (c.calls i).WillReset h

/-- The block whose state the next step of the call resets the live state to. -/
def resetting : ImportTask → Option H256
  | fetched outcome _ => some outcome.newHead
  | _ => none

/-- A call that resets the live state now does so to the state of the head, or another call will
do that later. -/
def ResetsCurrent {ι : Type} (c : Interleaving ι ChainState ImportTask) (i : ι) : Prop :=
  ∀ n ∈ (c.calls i).resetting, c.shared.store.head = some n
    ∨ ∃ h ∈ c.shared.store.head, ∃ j, j ≠ i ∧ (c.calls j).WillReset h

instance {ι : Type} [DecidableEq ι] [Fintype ι] (c : Interleaving ι ChainState ImportTask) (i : ι) :
    Decidable (ResetsCurrent c i) :=
  inferInstanceAs (Decidable (∀ n ∈ (c.calls i).resetting, _ ∨ _))

section

variable [Keccak]

/-- What a step can do to the store and the live state. -/
inductive StepKind [Ed25519] (cs cs' : ChainState) : ImportTask → ImportTask → Prop
  | idle {call call'} (hs : cs'.store = cs.store) (hl : cs'.live = cs.live)
      (hcall : call.pending = none) (hcall' : call'.pending = none) : StepKind cs cs' call call'
  | insert {b trial o} (hl : cs'.live = cs.live) (hv : Insertable cs.store b)
      (hn : Inserted cs.store b o cs'.store) : StepKind cs cs' (checked b trial) (inserted trial o)
  | record {trial o call'} (hl : cs'.live = cs.live)
      (hs : cs'.store = cs.store.recordState o.hash trial)
      (hcall : call' = if o.headChanged then .recorded o else .finished (.ok o)) :
      StepKind cs cs' (inserted trial o) call'
  | fetch {o call'} (hcs : cs' = cs)
      (hcall : (∃ post, cs.store.snapshots[o.newHead]? = some post ∧ call' = .fetched o post)
        ∨ (cs.store.snapshots[o.newHead]? = none ∧ call' = .applied o)) :
      StepKind cs cs' (.recorded o) call'
  | reset {o post} (hs : cs'.store = cs.store) (hl : cs'.live = post) :
      StepKind cs cs' (.fetched o post) (.applied o)

theorem stepKind_act [Ed25519] [Wasmi] {cs : ChainState} (hi : StoreInv cs.store)
    (call : ImportTask) :
    StepKind cs (act cs call).1 call (act cs call).2 := by
  cases call with
  | started b =>
    have hstep : (act cs (started b)).1 = cs ∧ (act cs (started b)).2.pending = none := by
      simp only [act]
      split
      · exact ⟨rfl, rfl⟩
      · split
        · exact ⟨rfl, rfl⟩
        · split <;> exact ⟨rfl, rfl⟩
    exact .idle (by rw [hstep.1]) (by rw [hstep.1]) rfl hstep.2
  | checked b trial =>
    rcases insertBlock_cases hi b with ⟨e, he⟩ | ⟨o, store', heq, hv, -, hn⟩
    · simp only [act, he]
      exact .idle rfl rfl rfl rfl
    · simp only [act, heq]
      exact .insert rfl hv hn
  | inserted trial o => exact .record rfl rfl rfl
  | recorded o =>
    simp only [act, stateAt]
    cases hs : cs.store.snapshots[o.newHead]? with
    | none => exact .fetch rfl (.inr ⟨hs, rfl⟩)
    | some post => exact .fetch rfl (.inl ⟨post, hs, rfl⟩)
  | fetched o post => exact .reset rfl rfl
  | applied o => exact .idle rfl rfl rfl rfl
  | readOld o oldTxs => exact .idle rfl rfl rfl rfl
  | moving o newHashes oldTxs newTxs =>
    cases oldTxs with
    | cons tx oldTxs =>
      simp only [act]
      split <;> exact .idle rfl rfl rfl rfl
    | nil => cases newTxs <;> exact .idle rfl rfl rfl rfl
  | finished r => exact .idle rfl rfl rfl rfl

namespace Inv

variable {ι : Type} {c c' : Interleaving ι ChainState ImportTask} {i : ι}

theorem of_step (hinv : Inv c) (hcalls : ∀ j, j ≠ i → c'.calls j = c.calls j)
    (hstore : StoreInv c'.shared.store) (hsound : Sound c'.shared.store (c'.calls i))
    (hothers : ∀ j, j ≠ i → Sound c'.shared.store (c.calls j))
    (hdistinct : ∀ o, (c'.calls i).pending = some o → ∀ j oj, j ≠ i →
      (c.calls j).pending = some oj → o.hash ≠ oj.hash)
    (hlive : Synced c'.shared
      ∨ ∃ h, c'.shared.store.head = some h ∧ ((c'.calls i).WillReset h
        ∨ ∃ j, j ≠ i ∧ (c.calls j).WillReset h)) : Inv c' where
  store := hstore
  sound j := by
    by_cases hj : j = i
    · rw [hj]
      exact hsound
    · rw [hcalls j hj]
      exact hothers j hj
  distinct j k oj ok hjk hoj hok := by
    by_cases hj : j = i
    · subst hj
      rw [hcalls k (Ne.symm hjk)] at hok
      exact hdistinct oj hoj k ok (Ne.symm hjk) hok
    · rw [hcalls j hj] at hoj
      by_cases hk : k = i
      · subst hk
        exact (hdistinct ok hok j oj hj hoj).symm
      · rw [hcalls k hk] at hok
        exact hinv.distinct j k oj ok hjk hoj hok
  live := by
    rcases hlive with hs | ⟨h, hh, hw | ⟨j, hj, hw⟩⟩
    · exact .inl hs
    · exact .inr ⟨h, hh, i, hw⟩
    · refine .inr ⟨h, hh, j, ?_⟩
      rwa [hcalls j hj]

theorem live_cases (hinv : Inv c) (i : ι) : Synced c.shared
    ∨ ∃ h, c.shared.store.head = some h ∧ ((c.calls i).WillReset h
      ∨ ∃ j, j ≠ i ∧ (c.calls j).WillReset h) := by
  rcases hinv.live with hs | ⟨h, hh, j, hw⟩
  · exact .inl hs
  · by_cases hj : j = i
    · exact .inr ⟨h, hh, .inl (hj ▸ hw)⟩
    · exact .inr ⟨h, hh, .inr ⟨j, hj, hw⟩⟩

theorem hash_ne (hinv : Inv c) {o : InsertOutcome} (ho : (c.calls i).pending = some o) (j : ι)
    (oj : InsertOutcome) (hj : j ≠ i) (hoj : (c.calls j).pending = some oj) : o.hash ≠ oj.hash :=
  hinv.distinct i j o oj (Ne.symm hj) ho hoj

theorem idle (hinv : Inv c) (hcalls : ∀ j, j ≠ i → c'.calls j = c.calls j)
    (hs : c'.shared.store = c.shared.store) (hl : c'.shared.live = c.shared.live)
    (hcall : (c.calls i).pending = none) (hcall' : (c'.calls i).pending = none) : Inv c' := by
  refine hinv.of_step hcalls (hs ▸ hinv.store) (.of_pending_none hcall')
    (fun j _ => hs ▸ hinv.sound j) (fun o ho => ?_) ?_
  · rw [hcall'] at ho
    cases ho
  · rcases hinv.live_cases i with ⟨h, hh, hsnap⟩ | ⟨h, hh, ⟨o, ho, -⟩ | hw⟩
    · exact .inl ⟨h, by rw [hs]; exact hh, by rw [hs, hl]; exact hsnap⟩
    · rw [hcall] at ho
      cases ho
    · exact .inr ⟨h, by rw [hs]; exact hh, .inr hw⟩

/-- The insertion: if it moved the head, the call will reset the live state to the new head. -/
theorem insert [Ed25519] {b : Block} {trial : StateDB} {o : InsertOutcome} (hinv : Inv c)
    (hcalls : ∀ j, j ≠ i → c'.calls j = c.calls j) (hcall : c.calls i = checked b trial)
    (hcall' : c'.calls i = inserted trial o) (hl : c'.shared.live = c.shared.live)
    (hv : Insertable c.shared.store b) (hn : Inserted c.shared.store b o c'.shared.store) :
    Inv c' := by
  have hne (h : H256) (hsome : (c.shared.store.getBlock h).isSome) : h ≠ b.hash := by
    rintro rfl
    rw [hv.fresh] at hsome
    cases hsome
  have hstored (h : H256) (hsome : (c.shared.store.getBlock h).isSome) :
      (c'.shared.store.getBlock h).isSome := by
    rw [hn.getBlock, if_neg (hne h hsome)]
    exact hsome
  have hpend (o' : InsertOutcome) (ho' : (c'.calls i).pending = some o') : o' = o := by
    rw [hcall'] at ho'
    exact (Option.some.inj ho').symm
  have hhead : (o.headChanged = true ∧ c'.shared.store.head = some b.hash)
      ∨ (o.headChanged = false ∧ c'.shared.store.head = c.shared.store.head) := by
    rcases hn.cases with ⟨hm, hh, -⟩ | ⟨hm, hh, -⟩
    · exact .inl ⟨hm, hh⟩
    · exact .inr ⟨hm, hh⟩
  have hnew (hm : o.headChanged = true) : o.newHead = b.hash := by
    rcases hhead with ⟨-, hh⟩ | ⟨hm', -⟩
    · exact Option.some.inj (hn.newHead.symm.trans hh)
    · rw [hm] at hm'
      cases hm'
  refine hinv.of_step hcalls (hinv.store.inserted hv hn) ?_ (fun j _ => ?_) ?_ ?_
  · refine ⟨fun o' ho' => ?_, fun o' ho' hm => ?_, fun o' ho' hm hh => ?_, fun o' ho' => ?_,
      fun o' post ho' => ?_⟩
    · rw [hpend o' ho', hn.getBlock, if_pos hn.hash]
      rfl
    · rw [hpend o' ho'] at hm ⊢
      rw [hnew hm, hn.hash]
    · -- a head that stayed was stored before, and the block was not
      rw [hpend o' ho'] at hm hh
      rcases hhead with ⟨hm', -⟩ | ⟨-, heq⟩
      · rw [hm] at hm'
        cases hm'
      · rw [heq, hn.hash] at hh
        obtain ⟨x, hx, -⟩ := hinv.store.head_max _ hh
        exact hne b.hash (by rw [hx]; rfl) rfl
    · rw [hcall'] at ho'
      cases ho'
    · rw [hcall'] at ho'
      cases ho'
  · refine (hinv.sound j).mono hstored ?_ fun o _ => by rw [hn.snapshots]
    rcases hhead with ⟨-, hh⟩ | ⟨-, hh⟩
    · exact .inr ⟨b.hash, hh, hv.fresh⟩
    · exact .inl hh
  · intro o' ho' j oj hj hoj heq
    rw [hpend o' ho', hn.hash] at heq
    exact hne oj.hash ((hinv.sound j).stored oj hoj) heq.symm
  · rcases hhead with ⟨hm, hh⟩ | ⟨-, hh⟩
    · exact .inr ⟨b.hash, hh, .inl ⟨o, by rw [hcall']; rfl, hm, hnew hm⟩⟩
    · rcases hinv.live_cases i with ⟨h, hh', hsnap⟩ | ⟨h, hh', ⟨o', ho', -⟩ | hw⟩
      · exact .inl ⟨h, hh.trans hh', by rw [hn.snapshots, hl]; exact hsnap⟩
      · rw [hcall] at ho'
        cases ho'
      · exact .inr ⟨h, hh.trans hh', .inr hw⟩

theorem record {trial : StateDB} {o : InsertOutcome} (hinv : Inv c)
    (hcalls : ∀ j, j ≠ i → c'.calls j = c.calls j) (hcall : c.calls i = inserted trial o)
    (hcall' : c'.calls i = if o.headChanged then .recorded o else .finished (.ok o))
    (hl : c'.shared.live = c.shared.live)
    (hs : c'.shared.store = c.shared.store.recordState o.hash trial) : Inv c' := by
  have ho : (c.calls i).pending = some o := by rw [hcall]; rfl
  have hpend (o' : InsertOutcome) (ho' : (c'.calls i).pending = some o') :
      o' = o ∧ o.headChanged = true := by
    rw [hcall'] at ho'
    split at ho'
    next hm => exact ⟨(Option.some.inj ho').symm, hm⟩
    next => cases ho'
  have hsnap (h : H256) (hh : h ≠ o.hash) :
      c'.shared.store.snapshots[h]? = c.shared.store.snapshots[h]? := by
    rw [hs]
    exact Table.get_insert_of_ne _ _ hh
  have hhead : c'.shared.store.head = c.shared.store.head := by rw [hs]; rfl
  have hget : c'.shared.store.getBlock = c.shared.store.getBlock := by rw [hs]; rfl
  have hmoved := (hinv.sound i).moved o ho
  have hwill (hm : o.headChanged = true) : (c'.calls i).WillReset o.hash := by
    rw [hcall', if_pos hm]
    exact ⟨o, rfl, hm, hmoved hm⟩
  refine hinv.of_step hcalls ?_ ?_ (fun j hj => ?_) (fun o' ho' => ?_) ?_
  · rw [hs]
    exact hinv.store.of_sameHeaders (sameHeaders_recordState _ _ _)
  · refine ⟨fun o' ho' => ?_, fun o' ho' hm => ?_, fun o' ho' hm => ?_, fun o' ho' => ?_,
      fun o' post ho' => ?_⟩
    · rw [(hpend o' ho').1, hget]
      exact (hinv.sound i).stored o ho
    · rw [(hpend o' ho').1]
      exact hmoved (hpend o' ho').2
    · rw [(hpend o' ho').1, (hpend o' ho').2] at hm
      cases hm
    · obtain ⟨rfl, hm⟩ := hpend o' (by rw [ho']; rfl)
      refine ⟨hm, ?_⟩
      rw [hs]
      simp [recordState]
    · rw [hcall'] at ho'
      split at ho' <;> cases ho'
  · refine (hinv.sound j).mono (fun h hsome => by rw [hget]; exact hsome) (.inl hhead) ?_
    exact fun oj hoj => hsnap _ (hinv.hash_ne ho j oj hj hoj).symm
  · rw [(hpend o' ho').1]
    exact hinv.hash_ne ho
  · rw [hhead]
    rcases hinv.live_cases i with ⟨h, hh, hsn⟩ | ⟨h, hh, ⟨o', ho', hm, hnew⟩ | hw⟩
    · by_cases heq : h = o.hash
      · cases hm : o.headChanged with
        | true => exact .inr ⟨h, hh, .inl (heq ▸ hwill hm)⟩
        | false => exact absurd (heq ▸ hh) ((hinv.sound i).stayed o ho hm)
      · exact .inl ⟨h, hhead.trans hh, by rw [hsnap h heq, hl]; exact hsn⟩
    · obtain rfl : o = o' := Option.some.inj (ho.symm.trans ho')
      rw [hmoved hm] at hnew
      exact .inr ⟨h, hh, .inl (hnew ▸ hwill hm)⟩
    · exact .inr ⟨h, hh, .inr hw⟩

/-- The snapshot is read back: it is there, since no other call writes to it. -/
theorem fetch {o : InsertOutcome} (hinv : Inv c) (hcalls : ∀ j, j ≠ i → c'.calls j = c.calls j)
    (hcall : c.calls i = .recorded o) (hcs : c'.shared = c.shared)
    (hcall' : (∃ post, c.shared.store.snapshots[o.newHead]? = some post
        ∧ c'.calls i = .fetched o post)
      ∨ (c.shared.store.snapshots[o.newHead]? = none ∧ c'.calls i = .applied o)) : Inv c' := by
  have hsound := hinv.sound i
  have ho : (c.calls i).pending = some o := by rw [hcall]; rfl
  obtain ⟨hm, hsome⟩ := hsound.recorded o hcall
  have hnew := hsound.moved o ho hm
  rw [hnew] at hcall'
  rcases hcall' with ⟨post, hpost, hc⟩ | ⟨hnone, -⟩
  · have ho' : (c'.calls i).pending = (c.calls i).pending := by rw [hc, ho]; rfl
    refine hinv.of_step hcalls (hcs ▸ hinv.store) ?_ (fun j _ => hcs ▸ hinv.sound j) ?_ ?_
    · rw [hcs]
      refine ⟨ho' ▸ hsound.stored, ho' ▸ hsound.moved, ho' ▸ hsound.stayed, fun o₁ ho₁ => ?_,
        fun o₁ post₁ ho₁ => ?_⟩
      · rw [hc] at ho₁
        cases ho₁
      · rw [hc] at ho₁
        cases ho₁
        exact ⟨hm, hpost⟩
    · rw [ho']
      exact fun o₁ ho₁ => hinv.hash_ne ho₁
    · rw [hcs]
      unfold WillReset
      rw [ho']
      exact hinv.live_cases i
  · rw [hnone] at hsome
    cases hsome

theorem reset {o : InsertOutcome} {post : StateDB} (hinv : Inv c)
    (hcalls : ∀ j, j ≠ i → c'.calls j = c.calls j) (hcur : ResetsCurrent c i)
    (hcall : c.calls i = .fetched o post) (hcall' : c'.calls i = .applied o)
    (hs : c'.shared.store = c.shared.store) (hl : c'.shared.live = post) : Inv c' := by
  have ho : (c.calls i).pending = some o := by rw [hcall]; rfl
  have hnone : (c'.calls i).pending = none := by rw [hcall']; rfl
  refine hinv.of_step hcalls (hs ▸ hinv.store) (.of_pending_none hnone)
    (fun j _ => hs ▸ hinv.sound j) (fun o' ho' => ?_) ?_
  · rw [hnone] at ho'
    cases ho'
  · rcases hcur o.newHead (by rw [hcall]; rfl) with hh | ⟨h, hh, j, hj, hw⟩
    · -- the state that was fetched is still the snapshot of the block
      obtain ⟨hm, hpost⟩ := (hinv.sound i).fetched o post hcall
      have hnew := (hinv.sound i).moved o ho hm
      exact .inl ⟨o.newHead, by rw [hs]; exact hh, by rw [hs, hl, hnew]; exact hpost⟩
    · exact .inr ⟨h, by rw [hs]; exact hh, .inr ⟨j, hj, hw⟩⟩

/-- **Every step keeps the invariant**, if a reset that comes too late is not the last one. -/
theorem step [Ed25519] [Wasmi] [DecidableEq ι] (hinv : Inv c) (hcur : ResetsCurrent c i) :
    Inv (c.step act i) := by
  have hcalls : ∀ j, j ≠ i → (c.step act i).calls j = c.calls j :=
    fun j hj => Interleaving.step_calls_of_ne c hj
  have hkind := stepKind_act hinv.store (c.calls i)
  have hself : (act c.shared (c.calls i)).2 = (c.step act i).calls i :=
    (Interleaving.step_calls_self c i).symm
  have hshared : (act c.shared (c.calls i)).1 = (c.step act i).shared := rfl
  rw [hself, hshared] at hkind
  generalize hci : c.calls i = call at hkind
  generalize hci' : (c.step act i).calls i = call' at hkind
  cases hkind with
  | idle hs hl hcall hcall' => exact hinv.idle hcalls hs hl (hci ▸ hcall) (hci' ▸ hcall')
  | insert hl hv hn => exact hinv.insert hcalls hci hci' hl hv hn
  | record hl hs hcall => exact hinv.record hcalls hci (hci'.trans hcall) hl hs
  | fetch hcs hcall => exact hinv.fetch hcalls hci hcs (hci' ▸ hcall)
  | reset hs hl => exact hinv.reset hcalls hcur hci hci' hs hl

end Inv

end

/-! ### Runs -/

section

variable [Keccak] [Ed25519] [Wasmi]

theorem synced_run (g : Genesis) (config : PoolConfig) (events : List ChainEvent) :
    StoreInv (ChainEvent.run g config events).cs.store
      ∧ Synced (ChainEvent.run g config events).cs := by
  refine List.foldlRecOn events ChainEvent.step
    (motive := fun t => StoreInv t.cs.store ∧ Synced t.cs) ?_ ?_
  · refine ⟨g.storeInv, g.block.hash, g.head, ?_⟩
    show g.store.snapshots[g.block.hash]? = some g.state
    rw [g.snapshots, if_pos rfl]
  · rintro t ⟨hi, h, hh, hlive⟩ event -
    have hprune {store' : BlockStore} (hp : Pruned t.cs.store store') :
        StoreInv store' ∧ Synced { t.cs with store := store' } :=
      ⟨hi.of_sameHeaders hp.same, h, hp.same.head.trans hh, (hp.head h hh).trans hlive⟩
    cases event with
    | pool op => exact ⟨hi, h, hh, hlive⟩
    | chain op =>
      cases op with
      | pruneSnapshots => exact hprune (pruned_pruneSnapshots hi)
      | pruneSnapshotsKeep k => exact hprune (pruned_pruneSnapshotsKeep hi k)
      | importBlock b =>
        rw [ChainEvent.step, ChainOp.step]
        rcases ChainState.importAndApply_cases hi b with
          ⟨e, he⟩ | ⟨pre, outs, post, ctx, outcome, store', cs', heq, ha⟩
        · rw [he]
          exact ⟨hi, h, hh, hlive⟩
        rw [heq]
        refine ⟨ha.storeInv hi, ?_⟩
        show Synced cs'
        cases hm : outcome.headChanged with
        | true =>
          obtain ⟨hhead, hpost⟩ := ha.live_of_moved hm
          exact ⟨b.hash, hhead, by rw [ha.snapshots, hpost, Table.get_insert_self]⟩
        | false =>
          obtain ⟨hhead, hl, -⟩ := ha.stayed hm
          have hne : h ≠ b.hash := by
            rintro rfl
            obtain ⟨x, hx, -⟩ := hi.head_max _ hh
            rw [ha.insertable.fresh] at hx
            cases hx
          refine ⟨h, hhead.trans hh, ?_⟩
          rw [ha.snapshots, Table.get_insert_of_ne _ _ hne, hl, hlive]

/-- The result of a call that has returned. -/
def result : ImportTask → Option (Except ChainError InsertOutcome)
  | finished r => some r
  | _ => none

/-- **The live state follows the head, unless a late reset is the last one.**  Calls for any blocks
start after any run of the chain and the pool and take their steps in any order.  If every reset
is to the state of the head or is followed by one to the state of the head, then at any time the
live state is the state of the head or a call is about to make it so; when all calls have returned
it is the state of the head. -/
theorem live_of_current {ι : Type} [DecidableEq ι] (g : Genesis) (config : PoolConfig)
    (events : List ChainEvent) (blocks : ι → Block) (schedule : List ι)
    (start c : Interleaving ι ChainState ImportTask)
    (hstart : start = ⟨(ChainEvent.run g config events).cs, fun i => started (blocks i)⟩)
    (hc : c = start.run act schedule) (hcur : Interleaving.Along act ResetsCurrent start schedule) :
    ∃ head, c.shared.store.head = some head
      ∧ (c.shared.store.stateAt head = some c.shared.live ∨ ∃ i, (c.calls i).WillReset head)
      ∧ ((∀ i, (c.calls i).result.isSome) →
        c.shared.store.stateAt head = some c.shared.live) := by
  obtain ⟨hi, hsync⟩ := synced_run g config events
  have hinv₀ : Inv start := by
    subst hstart
    refine ⟨hi, fun i => .of_pending_none rfl, fun i j oi oj _ ho _ => ?_, .inl hsync⟩
    cases ho
  have hinv : Inv c := by
    rw [hc]
    exact hcur.invariant (fun c i hinv hcur => hinv.step hcur) hinv₀
  have hstate {h : H256} (hs : c.shared.store.snapshots[h]? = some c.shared.live) :
      c.shared.store.stateAt h = some c.shared.live := by
    rw [stateAt, hs]
    rfl
  rcases hinv.live with ⟨h, hh, hs⟩ | ⟨h, hh, i, hw⟩
  · exact ⟨h, hh, .inl (hstate hs), fun _ => hstate hs⟩
  · refine ⟨h, hh, .inr ⟨i, hw⟩, fun hdone => ?_⟩
    -- a call that has returned resets nothing
    obtain ⟨o, ho, -⟩ := hw
    have hsome := hdone i
    cases hcall : c.calls i <;> rw [hcall] at ho hsome <;> cases ho <;> cases hsome

end

end ImportTask

namespace Devnet

open ImportTask

/-- One call for each of two blocks on the genesis. -/
def bothCalls : Interleaving Bool ChainState ImportTask :=
  ⟨(ChainEvent.run genesis PoolConfig.default []).cs,
    fun a => started (if a then blockA else blockB)⟩

/-- Both blocks are checked before one of them is inserted. -/
def overlapping : List Bool := [true, false, true, false] ++ .replicate 8 true ++ .replicate 8 false

theorem live_of_current_overlapping :
    Interleaving.Along act ResetsCurrent bothCalls overlapping
      ∧ (∀ a, ((bothCalls.run act overlapping).calls a).result.isSome)
      ∧ ∃ head, (bothCalls.run act overlapping).shared.store.head = some head
        ∧ (bothCalls.run act overlapping).shared.store.stateAt head
          = some (bothCalls.run act overlapping).shared.live := by
  have heval : Interleaving.Along act ResetsCurrent bothCalls overlapping
      ∧ ∀ a, ((bothCalls.run act overlapping).calls a).result.isSome := by decide +kernel
  obtain ⟨hcur, hdone⟩ := heval
  obtain ⟨head, hhead, -, hlive⟩ := live_of_current genesis PoolConfig.default []
    (fun a => if a then blockA else blockB) overlapping bothCalls _ rfl rfl hcur
  exact ⟨hcur, hdone, head, hhead, hlive hdone⟩

/-- The second block is inserted; the call for the first block does all its steps; the call for
the second goes on. -/
def late : List Bool := [false, false] ++ .replicate 10 true ++ .replicate 8 false

/-- **A late reset.**  Both calls return, the first block is the head, and the live state is that of
the second: the transfer of the first block is not in it. -/
theorem stale_reset : ∃ head post, (bothCalls.run act late).shared.store.head = some head
    ∧ (bothCalls.run act late).shared.store.stateAt head = some post
    ∧ (∀ a, ((bothCalls.run act late).calls a).result.any Except.isOk)
    ∧ post.nonce user = 1 ∧ (bothCalls.run act late).shared.live.nonce user = 0 := by
  have heval : (bothCalls.run act late).shared.store.head = some blockA.hash
      ∧ (∀ a, ((bothCalls.run act late).calls a).result.any Except.isOk)
      ∧ ((bothCalls.run act late).shared.store.stateAt blockA.hash).map (StateDB.nonce · user)
        = some 1
      ∧ (bothCalls.run act late).shared.live.nonce user = 0 := by decide +kernel
  obtain ⟨hhead, hok, hstate, hlive⟩ := heval
  obtain ⟨post, hpost, hnonce⟩ := Option.map_eq_some_iff.mp hstate
  exact ⟨_, post, hhead, hpost, hok, hnonce, hlive⟩

end Devnet

end Ivory
