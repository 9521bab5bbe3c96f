import Ivory.Base.Word
import Ivory.Vm

/-!
# Transaction execution

`ivory-executor`.  `execute_transaction` writes to the shared state as it goes
and returns early on an error, so the model returns the state and the context
next to the result, also when the result is an error.

The function is cut where the source writes:

* `precheck`: nonce, gas, balance and block gas.  Nothing is written.
* the debit of the sender, with the nonce incremented;
* `credit`: the recipient, or the created contract and its code;
* `executeCall`: the contract, which writes storage;
* `refund`: the unused gas.

A failure in `precheck` leaves no trace; every later failure leaves at least
the debited sender behind.
-/

namespace Ivory

/-- Errors of transaction execution. -/
inductive ExecutionError
  | nonceMismatch (expected got : UInt64)
  | insufficientBalance
  | outOfGas
  | overflow
  | blockGasLimitExceeded
  | vm (text : String)
deriving DecidableEq

/-! ### Gas -/

/-- Gas schedule. -/
structure GasConfig where
  txGasCost : UInt64
  dataGasCost : UInt64
  maxGasPerBlock : UInt64
deriving DecidableEq

/-- `GasConfig::default()`. -/
def GasConfig.default : GasConfig := ⟨21000, 16, 30000000⟩

/-- The gas of one transaction. -/
structure GasMeter where
  limit : UInt64
  remaining : UInt64
  intrinsic : UInt64
deriving DecidableEq

namespace GasMeter

/-- `GasMeter::new`. -/
def new (limit intrinsic : UInt64) : Except ExecutionError GasMeter :=
  match limit.checkedSub intrinsic with
  | none => .error .outOfGas
  | some remaining => .ok ⟨limit, remaining, intrinsic⟩

/-- `gas_used`. -/
def gasUsed (m : GasMeter) : UInt64 := m.limit.saturatingSub m.remaining

/-- `refund_gas`. -/
def refundGas (m : GasMeter) : UInt64 := m.remaining

/-- `spend`. -/
def spend (m : GasMeter) (amount : UInt64) : Except ExecutionError GasMeter :=
  match m.remaining.checkedSub amount with
  | none => .error .outOfGas
  | some remaining => .ok { m with remaining := remaining }

end GasMeter

/-- `compute_intrinsic_gas_len`. -/
def computeIntrinsicGasLen (dataLen : ℕ) (cfg : GasConfig) : UInt64 :=
  let dataCost := (UInt64.ofNat dataLen).saturatingMul cfg.dataGasCost
  cfg.txGasCost.saturatingAdd dataCost

/-- `compute_intrinsic_gas`. -/
def computeIntrinsicGas (tx : Transaction) (cfg : GasConfig) : UInt64 :=
  computeIntrinsicGasLen tx.dataLen cfg

/-! ### Calls -/

/-- Call or contract creation. -/
inductive CallKind
  | call
  | create
deriving DecidableEq

/-- What a call is given. -/
structure CallInput where
  kind : CallKind
  sender : Address
  recipient : Option Address
  value : U256
  data : Bytes

/-- `CallInput::from_tx`. -/
def CallInput.fromTx (tx : Transaction) : CallInput :=
  { kind := if tx.isCreate then .create else .call
    sender := tx.sender, recipient := tx.recipient, value := tx.value, data := tx.data }

/-- What a call gives back. -/
structure CallResult where
  success : Bool
  logs : List Log
  gasUsed : UInt64
  output : Bytes
deriving DecidableEq

/-- `CallResult::empty`. -/
def CallResult.empty (success : Bool) (gasUsed : UInt64) : CallResult :=
  ⟨success, [], gasUsed, Vec.empty⟩

/-- `output_from_i32`. -/
def outputFromI32 (value : Int32) : Bytes := Vec.ofList (wordFromI32 value).toList

/-- Block-level execution context. -/
structure ExecutionContext where
  blockNumber : UInt64
  timestamp : UInt64
  gasUsed : UInt64
  beneficiary : Address
deriving DecidableEq

/-- `ExecutionContext::new`. -/
def ExecutionContext.new (blockNumber timestamp : UInt64) : ExecutionContext :=
  ⟨blockNumber, timestamp, 0, Address.zero⟩

/-- Receipt and gas accounting of a transaction. -/
structure ExecutionOutcome where
  receipt : Receipt
  gasUsed : UInt64
  gasRefunded : UInt64
  call : CallResult
deriving DecidableEq

section

variable [Keccak] [Wasmi]

/-- `execute_call`, and the state it leaves. -/
def executeCall (input : CallInput) (state : StateDB) (gasLimit : UInt64) :
    Except ExecutionError CallResult × StateDB :=
  match input.kind with
  | .create => (.ok (.empty true 0), state)
  | .call =>
    let target := input.recipient.getD input.sender
    let code := state.getCode target
    if code.isEmpty then (.ok (.empty true 0), state)
    else
      match WasmVm.execute code state target gasLimit input.data.toList with
      | (.error e, state) => (.error (.vm e.message), state)
      | (.ok out, state) =>
        (.ok { success := out.success, logs := out.logs
               gasUsed := gasLimit.saturatingSub out.gasLeft
               output := (out.returnValue.map outputFromI32).getD Vec.empty }, state)

/-! ### The steps of `execute_transaction` -/

/-- What the checks before the first write pass on: the meter and the debited sender. -/
structure Checked where
  meter : GasMeter
  sender : Account

/-- The checks before the first write. -/
def precheck (cfg : GasConfig) (state : StateDB) (ctx : ExecutionContext) (tx : Transaction) :
    Except ExecutionError Checked :=
  let sender := state.account tx.sender
  if sender.nonce ≠ tx.nonce then .error (.nonceMismatch sender.nonce tx.nonce)
  else
    match GasMeter.new tx.gas (computeIntrinsicGas tx cfg) with
    | .error e => .error e
    | .ok meter =>
      match (U256.ofU64 tx.gas).checkedMul tx.gasPrice with
      | none => .error .overflow
      | some gasCost =>
        match tx.value.checkedAdd gasCost with
        | none => .error .overflow
        | some total =>
          if sender.balance < total then .error .insufficientBalance
          else if ctx.gasUsed.saturatingAdd tx.gas > cfg.maxGasPerBlock then
            .error .blockGasLimitExceeded
          else
            match sender.balance.checkedSub total with
            | none => .error .overflow
            | some balance =>
              match sender.nonce.checkedAdd 1 with
              | none => .error .overflow
              | some nonce => .ok ⟨meter, { sender with balance := balance, nonce := nonce }⟩

/-- The account that receives the value: the recipient, or the created contract. -/
def Transaction.target (tx : Transaction) : Address :=
  tx.recipient.getD (Address.create tx.sender tx.nonce)

/-- The credit of the recipient, or the creation of a contract. -/
def credit (state : StateDB) (tx : Transaction) : Except ExecutionError StateDB :=
  match tx.recipient with
  | some target =>
    let recipient := state.account target
    match recipient.balance.checkedAdd tx.value with
    | none => .error .overflow
    | some balance => .ok (state.setAccount target { recipient with balance := balance })
  | none =>
    let created := Address.create tx.sender tx.nonce
    let account := state.account created
    match account.balance.checkedAdd tx.value with
    | none => .error .overflow
    | some balance =>
      let account := { account with balance := balance, codeHash := keccak256 tx.data.toList }
      .ok ((state.setAccount created account).setCode created tx.data)

/-- The refund of the unused gas to the sender, who is read again. -/
def refund (state : StateDB) (tx : Transaction) (units : UInt64) :
    Except ExecutionError StateDB :=
  match (U256.ofU64 units).checkedMul tx.gasPrice with
  | none => .error .overflow
  | some amount =>
    if amount.isZero then .ok state
    else
      let sender := state.account tx.sender
      match sender.balance.checkedAdd amount with
      | none => .error .overflow
      | some balance => .ok (state.setAccount tx.sender { sender with balance := balance })

/-- Everything after the debit: credit, call, refund, receipt. -/
def settle (state : StateDB) (ctx : ExecutionContext) (tx : Transaction) (meter : GasMeter) :
    Except ExecutionError ExecutionOutcome × StateDB × ExecutionContext :=
  match credit state tx with
  | .error e => (.error e, state, ctx)
  | .ok state =>
    match executeCall (CallInput.fromTx tx) state meter.remaining with
    | (.error e, state) => (.error e, state, ctx)
    | (.ok call, state) =>
      match if call.gasUsed > 0 then meter.spend call.gasUsed else .ok meter with
      | .error e => (.error e, state, ctx)
      | .ok meter =>
        match refund state tx meter.refundGas with
        | .error e => (.error e, state, ctx)
        | .ok state =>
          let receipt : Receipt :=
            { txHash := tx.hash, blockNumber := ctx.blockNumber, gasUsed := meter.gasUsed
              status := call.success, logs := Vec.ofList call.logs }
          (.ok ⟨receipt, meter.gasUsed, meter.refundGas, call⟩, state,
            { ctx with gasUsed := ctx.gasUsed.saturatingAdd meter.gasUsed })

/-- `Executor::execute_transaction`: the result, the state and the context it leaves. -/
def executeTransaction (cfg : GasConfig) (state : StateDB) (ctx : ExecutionContext)
    (tx : Transaction) : Except ExecutionError ExecutionOutcome × StateDB × ExecutionContext :=
  match precheck cfg state ctx tx with
  | .error e => (.error e, state, ctx)
  | .ok checked => settle (state.setAccount tx.sender checked.sender) ctx tx checked.meter

end

end Ivory
