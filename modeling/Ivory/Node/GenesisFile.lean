import Ivory.Node
import Ivory.Primitives.HexText

/-!
# The genesis file

`genesis.json` names the initial balances in a map from address texts to balance
texts.  `parsed_alloc` reads both while it iterates over the map, `run_node` and
`alloc_state_root` write one account after the other, and a later entry for the
same address replaces an earlier one.  The keys of the map are distinct texts;
`0xAA…`, `0xaa…` and `aa…` are one address.

The order of the iteration is an argument (`IterOrder`): it differs from process
to process.

* `allocState_perm`: entries that agree on every address give one state in any order.
* `GenesisFile.consistent_iff`: **the genesis is a function of the file exactly when keys
  of one address have one balance.**
* `Devnet.genesis_depends_on_order`: two spellings of one address with two balances give
  two genesis blocks.
-/

namespace Ivory

/-! ### Numbers in decimal -/

/-- Take in one more decimal digit of a number below `2 ^ 128`. -/
def pushDecimal (n : ℕ) (c : UInt8) : Option ℕ :=
  if 48 ≤ c ∧ c ≤ 57 ∧ n * 10 + (c.toNat - 48) < 2 ^ 128 then some (n * 10 + (c.toNat - 48))
  else none

/-- `str::parse::<u128>`.  A plus sign may stand in front; there must be a digit. -/
def parseU128 (text : List UInt8) : Option ℕ :=
  match (if text.head? = some 43 then text.tail else text) with
  | [] => none
  | digits => digits.foldlM pushDecimal 0

/-- `U256::from_u128`. -/
def U256.fromU128 (v : ℕ) : U256 := ⟨[UInt64.ofNat v, UInt64.ofNat (v >>> 64), 0, 0], rfl⟩

/-! ### The file -/

/-- Why a genesis file is refused. -/
inductive GenesisError
  | allocAddress
  | allocBalanceHex
  | allocBalanceDecimal
  | validatorAddress
  | extraData
deriving DecidableEq

/-- `genesis.json`, without the public key of the validator.  `alloc` is a map: no text is a key
twice. -/
structure GenesisFile where
  timestamp : UInt64
  gasLimit : UInt64
  validatorAddress : String
  extraData : String
  alloc : List (String × String)
  distinct : (alloc.map Prod.fst).Nodup

/-- `parse_u256`: hexadecimal behind a prefix, decimal otherwise. -/
def parseBalance (s : String) : Except GenesisError U256 :=
  if (utf8 s).take 2 = [48, 120] ∨ (utf8 s).take 2 = [48, 88] then
    match U256.fromHex (utf8 s) with
    | none => .error .allocBalanceHex
    | some v => .ok v
  else
    match parseU128 (utf8 s) with
    | none => .error .allocBalanceDecimal
    | some n => .ok (U256.fromU128 n)

/-- One entry of the alloc. -/
def parseEntry (e : String × String) : Except GenesisError (Address × U256) :=
  match fixedFromHex 20 (utf8 e.1) with
  | none => .error .allocAddress
  | some address =>
    match parseBalance e.2 with
    | .error err => .error err
    | .ok balance => .ok (address, balance)

/-- `decode_extra`. -/
def decodeExtra (s : String) : Except GenesisError Bytes :=
  match Hex.decode (stripHex (utf8 s)) with
  | none => .error .extraData
  | some raw => .ok (Vec.ofList raw)

theorem ok_of_toOption {ε α : Type} {x : Except ε α} {a : α} (h : a ∈ x.toOption) :
    x = .ok a := by
  cases x with
  | error e => cases h
  | ok b => exact congrArg _ (Option.some.inj h)

namespace GenesisFile

/-- `parsed_alloc`, for the order in which the map is iterated. -/
def parsedAlloc (g : GenesisFile) (order : IterOrder (String × String)) :
    Except GenesisError (List (Address × U256)) :=
  (order.pick g.alloc).mapM parseEntry

section

variable [Keccak]

/-- The genesis state that `run_node` installs. -/
def genesisState (g : GenesisFile) (order : IterOrder (String × String)) :
    Except GenesisError StateDB := do
  let alloc ← g.parsedAlloc order
  .ok (allocState alloc)

/-- `alloc_state_root`. -/
def allocStateRoot (g : GenesisFile) (order : IterOrder (String × String)) :
    Except GenesisError H256 := do
  let alloc ← g.parsedAlloc order
  .ok (allocState alloc).rootHash.1

/-- `genesis_block`. -/
def genesisBlock (g : GenesisFile) (order : IterOrder (String × String)) :
    Except GenesisError Block :=
  match fixedFromHex 20 (utf8 g.validatorAddress) with
  | none => .error .validatorAddress
  | some miner => do
    let extra ← decodeExtra g.extraData
    let stateRoot ← g.allocStateRoot order
    .ok
      { header :=
          { number := 0
            parentHash := H256.zero
            timestamp := g.timestamp
            miner := miner
            gasLimit := g.gasLimit
            gasUsed := 0
            stateRoot := stateRoot
            transactionsRoot := listRoot Transaction.codec Vec.empty
            receiptsRoot := listRoot Receipt.codec Vec.empty
            difficulty := U256.zero
            extraData := extra }
        transactions := Vec.empty
        receipts := Vec.empty }

end

/-- The alloc parses.  This does not depend on the order. -/
def Parses (g : GenesisFile) : Prop := ∀ e ∈ g.alloc, ∃ p, parseEntry e = .ok p

instance (g : GenesisFile) : Decidable g.Parses :=
  decidable_of_iff (∀ e ∈ g.alloc, (parseEntry e).toOption.isSome = true) <| by
    refine forall_congr' fun e => forall_congr' fun _ => ?_
    cases parseEntry e <;> simp [Except.toOption]

/-- Keys of one address have one balance. -/
def Consistent (g : GenesisFile) : Prop :=
  ∀ e ∈ g.alloc, ∀ e' ∈ g.alloc, ∀ a v v', parseEntry e = .ok (a, v) →
    parseEntry e' = .ok (a, v') → v = v'

instance (g : GenesisFile) : Decidable g.Consistent :=
  decidable_of_iff (∀ e ∈ g.alloc, ∀ e' ∈ g.alloc, ∀ p ∈ (parseEntry e).toOption,
    ∀ p' ∈ (parseEntry e').toOption, p.1 = p'.1 → p.2 = p'.2) <| by
    constructor
    · intro h e he e' he' a v v' hp hp'
      exact h e he e' he' (a, v) (by rw [hp]; rfl) (a, v') (by rw [hp']; rfl) rfl
    · rintro h e he e' he' ⟨a, v⟩ hp ⟨a', v'⟩ hp' rfl
      exact h e he e' he' a v v' (ok_of_toOption hp) (ok_of_toOption hp')

end GenesisFile

/-! ### The state of an alloc -/

section

variable [Keccak]

/-- The account that an allocated balance becomes. -/
def allocAccount (a : Address) (balance : U256) : Account :=
  { Account.new with balance := balance, storageRoot := StateDB.new.computeStorageRoot a }

/-- The accounts that are written one after the other. -/
def allocAccounts (alloc : List (Address × U256)) : Table Address Account :=
  (alloc.map fun e => (e.1, allocAccount e.1 e.2)).foldl (fun m e => m.insert e.1 e.2) ∅

theorem allocAccounts_append_singleton (alloc : List (Address × U256)) (e : Address × U256) :
    allocAccounts (alloc ++ [e]) = (allocAccounts alloc).insert e.1 (allocAccount e.1 e.2) := by
  rw [allocAccounts, List.map_append, List.foldl_append]
  rfl

theorem allocState_eq (alloc : List (Address × U256)) :
    allocState alloc = { StateDB.new with accounts := allocAccounts alloc } := by
  induction alloc using List.reverseRecOn with
  | nil => rfl
  | append_singleton alloc e ih =>
    rw [allocState, List.foldl_append, ← allocState, ih, allocAccounts_append_singleton]
    rfl

theorem get_allocState (alloc : List (Address × U256)) (a : Address) :
    (allocState alloc).accounts[a]? = (Table.lastValue alloc a).map (allocAccount a) := by
  rw [allocState_eq]
  show (allocAccounts alloc)[a]? = _
  rw [allocAccounts, Table.get_foldl_insert_last, Std.ExtTreeMap.getElem?_empty, Option.or_none]
  induction alloc using List.reverseRecOn with
  | nil => rfl
  | append_singleton alloc e ih =>
    rw [List.map_append, List.map_singleton, Table.lastValue_append_singleton,
      Table.lastValue_append_singleton, ih]
    split
    · next h => rw [← h]; rfl
    · rfl

/-- **Entries that agree on every address give one state**, in any order. -/
theorem allocState_perm {alloc alloc' : List (Address × U256)} (hp : alloc'.Perm alloc)
    (hc : ∀ a v v', (a, v) ∈ alloc → (a, v') ∈ alloc → v = v') :
    allocState alloc' = allocState alloc := by
  have hacc : (allocState alloc').accounts = (allocState alloc).accounts := by
    refine Table.ext fun a => ?_
    rw [get_allocState, get_allocState]
    refine congrArg _ ?_
    cases hlast : Table.lastValue alloc a with
    | none =>
      cases hlast' : Table.lastValue alloc' a with
      | none => rfl
      | some v =>
        obtain ⟨w, hw⟩ := Table.exists_lastValue (hp.mem_iff.mp (Table.mem_of_lastValue hlast'))
        rw [hlast] at hw
        cases hw
    | some v =>
      have hv := Table.mem_of_lastValue hlast
      exact Table.lastValue_of_unique (hp.mem_iff.mpr hv)
        fun w hw => hc a w v (hp.mem_iff.mp hw) hv
  rw [allocState_eq alloc', allocState_eq alloc] at hacc ⊢
  exact StateDB.ext hacc rfl rfl

end

/-! ### The order of the iteration -/

theorem mapM_eq_ok {ε α β : Type} {f : α → Except ε β} : ∀ {l : List α} {r : List β},
    l.mapM f = .ok r ↔ (∀ a ∈ l, ∃ b, f a = .ok b) ∧ r = l.filterMap fun a => (f a).toOption := by
  intro l
  induction l with
  | nil =>
    intro r
    simp [pure, Except.pure, eq_comm]
  | cons a l ih =>
    intro r
    rw [List.mapM_cons]
    cases hf : f a with
    | error e => simp [bind, Except.bind, hf]
    | ok b =>
      cases hl : l.mapM f with
      | error e =>
        constructor
        · intro h
          cases h
        · rintro ⟨hall, -⟩
          have hok := ih.mpr ⟨fun x hx => hall x (List.mem_cons_of_mem a hx), rfl⟩
          rw [hl] at hok
          cases hok
      | ok bs =>
        obtain ⟨hall, rfl⟩ := ih.mp hl
        simp only [bind, Except.bind, pure, Except.pure, List.forall_mem_cons, hf,
          Except.ok.injEq, List.filterMap_cons, Except.toOption]
        exact ⟨fun h => ⟨⟨⟨b, rfl⟩, hall⟩, h.symm⟩, fun h => h.2.symm⟩

namespace GenesisFile

variable {g : GenesisFile}

theorem Parses.parsedAlloc (h : g.Parses) (order : IterOrder (String × String)) :
    g.parsedAlloc order
      = .ok ((order.pick g.alloc).filterMap fun e => (parseEntry e).toOption) :=
  mapM_eq_ok.mpr ⟨fun e he => h e ((order.perm _).mem_iff.mp he), rfl⟩

/-- Whether the alloc parses does not depend on the order. -/
theorem parses_iff (order : IterOrder (String × String)) :
    g.Parses ↔ ∃ alloc, g.parsedAlloc order = .ok alloc := by
  constructor
  · exact fun h => ⟨_, h.parsedAlloc order⟩
  · rintro ⟨alloc, h⟩ e he
    exact (mapM_eq_ok.mp h).1 e ((order.perm _).mem_iff.mpr he)

theorem mem_entries {l : List (String × String)} {p : Address × U256} :
    p ∈ l.filterMap (fun e => (parseEntry e).toOption) ↔ ∃ e ∈ l, parseEntry e = .ok p := by
  rw [List.mem_filterMap]
  refine exists_congr fun e => and_congr_right fun _ => ?_
  cases parseEntry e with
  | error err => simp [Except.toOption]
  | ok q => simp [Except.toOption]

/-- The iteration yields an entry last. -/
def lastOrder (e : String × String) : IterOrder (String × String) where
  pick l := if e ∈ l then l.erase e ++ [e] else l
  perm l := by
    split
    · next h => exact (List.perm_append_singleton e _).trans (List.perm_cons_erase h).symm
    · exact List.Perm.refl l

variable [Keccak]

theorem genesisState_lastOrder (h : g.Parses) {e : String × String} (he : e ∈ g.alloc)
    {a : Address} {v : U256} (hp : parseEntry e = .ok (a, v)) :
    ∃ state, g.genesisState (lastOrder e) = .ok state
      ∧ state.accounts[a]? = some (allocAccount a v) := by
  refine ⟨_, by rw [genesisState, h.parsedAlloc]; rfl, ?_⟩
  have hpick : (lastOrder e).pick g.alloc = g.alloc.erase e ++ [e] := if_pos he
  have hentry : [e].filterMap (fun e => (parseEntry e).toOption) = [(a, v)] := by
    simp [hp, Except.toOption]
  rw [get_allocState, hpick, List.filterMap_append, hentry, Table.lastValue_append_singleton,
    if_pos rfl, Option.map_some]

/-- **The genesis is a function of the file exactly when keys of one address have one balance.**
For a file whose alloc parses: the state is the same for every order of the iteration if and only
if the file is consistent, and then the state root and the genesis block are the same as well. -/
theorem consistent_iff (g : GenesisFile) (h : g.Parses) :
    (g.Consistent ↔ ∃ state, ∀ order, g.genesisState order = .ok state)
      ∧ (g.Consistent → (∃ root, ∀ order, g.allocStateRoot order = .ok root)
        ∧ ∀ order order', g.genesisBlock order = g.genesisBlock order') := by
  -- every order gives the state of the list itself
  have hsame : g.Consistent → ∀ order : IterOrder (String × String),
      allocState ((order.pick g.alloc).filterMap fun e => (parseEntry e).toOption)
        = allocState (g.alloc.filterMap fun e => (parseEntry e).toOption) := by
    intro hc order
    refine allocState_perm ((order.perm g.alloc).filterMap _) fun a v v' hv hv' => ?_
    obtain ⟨e, he, hp⟩ := mem_entries.mp hv
    obtain ⟨e', he', hp'⟩ := mem_entries.mp hv'
    exact hc e he e' he' a v v' hp hp'
  have hstate : ∀ order, g.genesisState order = .ok (allocState
      ((order.pick g.alloc).filterMap fun e => (parseEntry e).toOption)) := by
    intro order
    rw [genesisState, h.parsedAlloc]
    rfl
  have hroot : ∀ order, g.allocStateRoot order = .ok (allocState
      ((order.pick g.alloc).filterMap fun e => (parseEntry e).toOption)).rootHash.1 := by
    intro order
    rw [allocStateRoot, h.parsedAlloc]
    rfl
  refine ⟨⟨fun hc => ⟨_, fun order => (hstate order).trans (by rw [hsame hc])⟩, ?_⟩, fun hc =>
    ⟨⟨_, fun order => (hroot order).trans (by rw [hsame hc])⟩, fun order order' => ?_⟩⟩
  · rintro ⟨state, hall⟩ e he e' he' a v v' hp hp'
    obtain ⟨s, hs, hget⟩ := genesisState_lastOrder h he hp
    obtain ⟨s', hs', hget'⟩ := genesisState_lastOrder h he' hp'
    rw [hall] at hs hs'
    cases hs
    cases hs'
    have hacc := Option.some.inj (hget.symm.trans hget')
    exact congrArg Account.balance hacc
  · rw [genesisBlock, genesisBlock, hroot, hroot, hsame hc, hsame hc]

end GenesisFile

namespace Devnet

/-- A genesis file that writes one address in two ways. -/
def twoSpellings (balance balance' : String) : GenesisFile where
  timestamp := 0
  gasLimit := 30000000
  validatorAddress := "0x0101010101010101010101010101010101010101"
  extraData := "0x"
  alloc := [("0xaaaaaaaaaaaaaaaaaaaaaaaaaaaaaaaaaaaaaaaa", balance),
    ("AAAAAAAAAAAAAAAAAAAAAAAAAAAAAAAAAAAAAAAA", balance')]
  distinct := by
    show ["0xaaaaaaaaaaaaaaaaaaaaaaaaaaaaaaaaaaaaaaaa",
      "AAAAAAAAAAAAAAAAAAAAAAAAAAAAAAAAAAAAAAAA"].Nodup
    decide

/-- With one balance, written in two ways as well, there is one genesis state. -/
theorem consistent_iff_twoSpellings : (twoSpellings "17" "0x11").Parses
    ∧ ∃ state, ∀ order, (twoSpellings "17" "0x11").genesisState order = .ok state := by
  have heval : (twoSpellings "17" "0x11").Parses ∧ (twoSpellings "17" "0x11").Consistent := by
    decide +kernel
  obtain ⟨hparses, hc⟩ := heval
  exact ⟨hparses, (GenesisFile.consistent_iff _ hparses).1.mp hc⟩

/-- The balance of the address in a genesis. -/
def spelledBalance (order : IterOrder (String × String)) : Option ℕ :=
  ((twoSpellings "1" "2").genesisState order).toOption.map fun s => s.balance (Arr.replicate 20 170)

/-- **Two processes that iterate in two orders have two genesis blocks**: two balances of one
address, two state roots and two hashes. -/
theorem genesis_depends_on_order : (twoSpellings "1" "2").Parses
    ∧ spelledBalance inOrder = some 2 ∧ spelledBalance lastFirst = some 1
    ∧ (twoSpellings "1" "2").allocStateRoot inOrder
      ≠ (twoSpellings "1" "2").allocStateRoot lastFirst
    ∧ ((twoSpellings "1" "2").genesisBlock inOrder).map Block.hash
      ≠ ((twoSpellings "1" "2").genesisBlock lastFirst).map Block.hash := by
  decide +kernel

end Devnet

end Ivory
