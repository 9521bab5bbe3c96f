import Ivory.State.StateDB

/-!
# Contract execution

`ivory-vm` runs a contract in the `wasmi` interpreter and serves five host
functions.  The interpreter is outside the repository.  What it does with a
module is a program over the host functions, a tree that asks a question,
receives the answer and goes on (`HostProg`); a program is finite since the
interpreter runs on fuel, and it is a function of the module and the fuel, so
the interpreter is deterministic.

The host works on the state of the caller, not on a copy: what a contract wrote
before it trapped stays written.

* `HostProg.run_related`: **two hosts that answer alike take a program to the same result.**
* `WasmVm.execute_eq`: an invocation is a run with the fuel that is set on the store.
* `WasmVm.run_related`: **a run sees nothing of the state but the storage of the contract.**
* `WasmVm.state_execute`: **what storage writes to the contract keep, an invocation keeps**,
  whatever its result.
-/

namespace Ivory

/-! ### Programs over the host functions -/

/-- What a guest does with the host until it returns. -/
inductive HostProg (α : Type)
  | ret (a : α)
  | storageGet (slot : Int32) (next : Int64 → HostProg α)
  | storageSet (slot : Int32) (value : Int64) (next : HostProg α)
  | emitLog (topic : Int32) (next : HostProg α)
  | calldataLen (next : Int32 → HostProg α)
  | calldataAt (index : Int32) (next : Int32 → HostProg α)

/-- The host's side: the shared state, the contract, its logs and its input. -/
structure Host where
  state : StateDB
  address : Address
  logs : List Log
  calldata : List UInt8

/-- `slot_key` and `topic_from_i32`: the number in the last four bytes. -/
def wordFromI32 (n : Int32) : H256 :=
  ⟨List.replicate 28 0 ++ (leBytes 4 n.toUInt32.toNat).reverse, by simp⟩

namespace Host

/-- `env.storage_get`: the low limb of the slot. -/
def storageGet (h : Host) (slot : Int32) : Int64 :=
  (h.state.getStorage h.address (wordFromI32 slot)).lowU64.toInt64

/-- `env.emit_log`. -/
def emitLog (h : Host) (topic : Int32) : Host :=
  { h with logs := h.logs ++ [⟨h.address, Vec.ofList [wordFromI32 topic], Vec.empty⟩] }

/-- `env.calldata_len`. -/
def calldataLen (h : Host) : Int32 := Int32.ofNat h.calldata.length

/-- `env.calldata_at`: zero past the end; a negative index is past the end. -/
def calldataAt (h : Host) (index : Int32) : Int32 :=
  (h.calldata[index.toInt64.toUInt64.toNat]?.map fun b => Int32.ofNat b.toNat).getD 0

variable [Keccak]

/-- `env.storage_set`. -/
def storageSet (h : Host) (slot : Int32) (value : Int64) : Host :=
  { h with state := h.state.setStorage h.address (wordFromI32 slot) (U256.ofU64 value.toUInt64) }

end Host

/-- Two hosts of one contract with related states. -/
structure Alike (R : StateDB → StateDB → Prop) (a : Address) (h h' : Host) : Prop where
  address : h.address = a
  address' : h'.address = a
  logs : h.logs = h'.logs
  calldata : h.calldata = h'.calldata
  state : R h.state h'.state

namespace Alike

variable {R : StateDB → StateDB → Prop} {address : Address} {h h' : Host}

theorem storageGet
    (hget : ∀ s s' slot, R s s' → s.getStorage address slot = s'.getStorage address slot)
    {slot : Int32} (hA : Alike R address h h') : h.storageGet slot = h'.storageGet slot := by
  rw [Host.storageGet, Host.storageGet, hA.address, hA.address', hget _ _ _ hA.state]

theorem storageSet [Keccak]
    (hset : ∀ s s' slot value, R s s' →
      R (s.setStorage address slot value) (s'.setStorage address slot value))
    {slot : Int32} {value : Int64} (hA : Alike R address h h') :
    Alike R address (h.storageSet slot value) (h'.storageSet slot value) := by
  refine ⟨hA.address, hA.address', hA.logs, hA.calldata, ?_⟩
  show R (h.state.setStorage h.address _ _) (h'.state.setStorage h'.address _ _)
  rw [hA.address, hA.address']
  exact hset _ _ _ _ hA.state

theorem emitLog {topic : Int32} (hA : Alike R address h h') :
    Alike R address (h.emitLog topic) (h'.emitLog topic) := by
  refine ⟨hA.address, hA.address', ?_, hA.calldata, hA.state⟩
  show h.logs ++ _ = h'.logs ++ _
  rw [hA.logs, hA.address, hA.address']

end Alike

section Run

variable [Keccak] {α : Type}

/-- Run a program against a host. -/
def HostProg.run : HostProg α → Host → α × Host
  | .ret a, h => (a, h)
  | .storageGet slot next, h => (next (h.storageGet slot)).run h
  | .storageSet slot value next, h => next.run (h.storageSet slot value)
  | .emitLog topic next, h => next.run (h.emitLog topic)
  | .calldataLen next, h => (next h.calldataLen).run h
  | .calldataAt index next, h => (next (h.calldataAt index)).run h

/-- **Two hosts that answer alike take a program to the same result**, as long as the writes keep
them alike. -/
theorem HostProg.run_related {R : Host → Host → Prop}
    (hget : ∀ h h' slot, R h h' → h.storageGet slot = h'.storageGet slot)
    (hinput : ∀ h h', R h h' → h.calldata = h'.calldata)
    (hset : ∀ h h' slot value, R h h' → R (h.storageSet slot value) (h'.storageSet slot value))
    (hlog : ∀ h h' topic, R h h' → R (h.emitLog topic) (h'.emitLog topic)) :
    ∀ (p : HostProg α) (h h' : Host), R h h' →
      (p.run h).1 = (p.run h').1 ∧ R (p.run h).2 (p.run h').2 := by
  intro p
  induction p with
  | ret a => intro h h' hR; exact ⟨rfl, hR⟩
  | storageGet slot next ih =>
    intro h h' hR
    rw [run, run, hget h h' slot hR]
    exact ih _ h h' hR
  | storageSet slot value next ih => intro h h' hR; exact ih _ _ (hset h h' slot value hR)
  | emitLog topic next ih => intro h h' hR; exact ih _ _ (hlog h h' topic hR)
  | calldataLen next ih =>
    intro h h' hR
    rw [run, run, Host.calldataLen, Host.calldataLen, hinput h h' hR]
    exact ih _ h h' hR
  | calldataAt index next ih =>
    intro h h' hR
    rw [run, run, Host.calldataAt, Host.calldataAt, hinput h h' hR]
    exact ih _ h h' hR

end Run

/-! ### The interpreter -/

/-- The type of the export `call`, as far as the caller tells types apart. -/
inductive CallType
  | i32
  | unit
  | other
deriving DecidableEq

/-- The `wasmi` interpreter with fuel metering.  Errors are the texts it gives. -/
class Wasmi where
  /-- Validated modules. -/
  Module : Type
  /-- Instances whose start function has returned. -/
  Inst : Type
  /-- `Module::new`. -/
  parse : List UInt8 → Except String Module
  /-- Setting the fuel, linking, instantiating and starting: the instance and the fuel left. -/
  start : Module → UInt64 → HostProg (Except String (Inst × UInt64))
  /-- `get_func("call")` and its type. -/
  callExport : Inst → Option CallType
  /-- Calling the export: its result, if it has one, and the fuel left. -/
  call : Inst → UInt64 → HostProg (Except String (Int32 × UInt64))

/-- Failures of loading or running a module. -/
inductive VmError
  | invalidModule (text : String)
  | instantiate (text : String)
  | exportType (text : String)
  | trap (text : String)
deriving DecidableEq

/-- The message of an error. -/
def VmError.message : VmError → String
  | .invalidModule text => "invalid wasm: " ++ text
  | .instantiate text => "instantiate: " ++ text
  | .exportType text => "export: " ++ text
  | .trap text => "trap: " ++ text

/-- Result of an invocation. -/
structure VmOutput where
  success : Bool
  returnValue : Option Int32
  logs : List Log
  gasLeft : UInt64

/-- `remaining_fuel`. -/
def remainingFuel (fuel gasLimit : UInt64) : UInt64 := if gasLimit = 0 then 0 else fuel

namespace WasmVm

variable [Keccak] [Wasmi]

/-- `WasmVm::execute`, and the state it leaves. -/
def execute (code : List UInt8) (state : StateDB) (address : Address) (gasLimit : UInt64)
    (input : List UInt8) : Except VmError VmOutput × StateDB :=
  let fuel := if gasLimit = 0 then 10000000 else gasLimit
  match Wasmi.parse code with
  | .error e => (.error (.invalidModule e), state)
  | .ok m =>
    match (Wasmi.start m fuel).run ⟨state, address, [], input⟩ with
    | (.error e, host) => (.error (.instantiate e), host.state)
    | (.ok (inst, fuel), host) =>
      match Wasmi.callExport inst with
      | none => (.ok ⟨true, none, host.logs, remainingFuel fuel gasLimit⟩, host.state)
      | some .other =>
        (.error (.exportType "call must have type () -> i32 or () -> ()"), host.state)
      | some .i32 =>
        match (Wasmi.call inst fuel).run host with
        | (.error e, host) => (.error (.trap e), host.state)
        | (.ok (value, fuel), host) =>
          (.ok ⟨true, some value, host.logs, remainingFuel fuel gasLimit⟩, host.state)
      | some .unit =>
        match (Wasmi.call inst fuel).run host with
        | (.error e, host) => (.error (.trap e), host.state)
        | (.ok (_, fuel), host) =>
          (.ok ⟨true, none, host.logs, remainingFuel fuel gasLimit⟩, host.state)

/-! ### Fuel -/

/-- The fuel that is set on the store. -/
def fuelFor (gasLimit : UInt64) : UInt64 := if gasLimit = 0 then 10000000 else gasLimit

/-- What an invocation gives, with the fuel that is left on the store. -/
structure Run where
  returnValue : Option Int32
  logs : List Log
  fuelLeft : UInt64

/-- An invocation with the fuel that is set on the store, and the state it leaves. -/
def run (code : List UInt8) (state : StateDB) (address : Address) (fuel : UInt64)
    (input : List UInt8) : Except VmError Run × StateDB :=
  match Wasmi.parse code with
  | .error e => (.error (.invalidModule e), state)
  | .ok m =>
    match (Wasmi.start m fuel).run ⟨state, address, [], input⟩ with
    | (.error e, host) => (.error (.instantiate e), host.state)
    | (.ok (inst, fuel), host) =>
      match Wasmi.callExport inst with
      | none => (.ok ⟨none, host.logs, fuel⟩, host.state)
      | some .other =>
        (.error (.exportType "call must have type () -> i32 or () -> ()"), host.state)
      | some .i32 =>
        match (Wasmi.call inst fuel).run host with
        | (.error e, host) => (.error (.trap e), host.state)
        | (.ok (value, fuel), host) => (.ok ⟨some value, host.logs, fuel⟩, host.state)
      | some .unit =>
        match (Wasmi.call inst fuel).run host with
        | (.error e, host) => (.error (.trap e), host.state)
        | (.ok (_, fuel), host) => (.ok ⟨none, host.logs, fuel⟩, host.state)

/-- **An invocation is a run with the fuel that is set on the store**; a limit of zero is reported
as used up. -/
theorem execute_eq (code : List UInt8) (state : StateDB) (address : Address) (gasLimit : UInt64)
    (input : List UInt8) : execute code state address gasLimit input
      = ((run code state address (fuelFor gasLimit) input).1.map fun r =>
          ⟨true, r.returnValue, r.logs, remainingFuel r.fuelLeft gasLimit⟩,
        (run code state address (fuelFor gasLimit) input).2) := by
  unfold execute run
  simp only [fuelFor]
  cases Wasmi.parse code with
  | error e => rfl
  | ok m =>
    simp only
    rcases (Wasmi.start m (if gasLimit = 0 then 10000000 else gasLimit)).run
      ⟨state, address, [], input⟩ with ⟨_ | ⟨inst, fuel⟩, host⟩
    · rfl
    · simp only
      rcases Wasmi.callExport inst with _ | _ | _ | _
      · rfl
      · rcases (Wasmi.call inst fuel).run host with ⟨_ | ⟨value, fuel'⟩, host'⟩ <;> rfl
      · rcases (Wasmi.call inst fuel).run host with ⟨_ | ⟨value, fuel'⟩, host'⟩ <;> rfl
      · rfl

/-- **A run sees nothing of the state but the storage of the contract**: states that agree on it
give the same result, and stay as alike as the writes to it leave them. -/
theorem run_related {R : StateDB → StateDB → Prop} {address : Address}
    (hget : ∀ s s' slot, R s s' → s.getStorage address slot = s'.getStorage address slot)
    (hset : ∀ s s' slot value, R s s' →
      R (s.setStorage address slot value) (s'.setStorage address slot value))
    (code : List UInt8) {state state' : StateDB} (fuel : UInt64) (input : List UInt8)
    (hR : R state state') :
    (run code state address fuel input).1 = (run code state' address fuel input).1
      ∧ R (run code state address fuel input).2 (run code state' address fuel input).2 := by
  have hrun : ∀ {β : Type} (p : HostProg β) (h h' : Host), Alike R address h h' →
      (p.run h).1 = (p.run h').1 ∧ Alike R address (p.run h).2 (p.run h').2 :=
    fun p => HostProg.run_related (fun _ _ _ => Alike.storageGet hget) (fun _ _ hA => hA.calldata)
      (fun _ _ _ _ => Alike.storageSet hset) (fun _ _ _ => Alike.emitLog) p
  unfold run
  cases Wasmi.parse code with
  | error e => exact ⟨rfl, hR⟩
  | ok m =>
    simp only
    obtain ⟨hres, hstart⟩ := hrun (Wasmi.start m fuel) ⟨state, address, [], input⟩
      ⟨state', address, [], input⟩ ⟨rfl, rfl, rfl, rfl, hR⟩
    revert hres hstart
    rcases (Wasmi.start m fuel).run ⟨state, address, [], input⟩ with ⟨r, host⟩
    rcases (Wasmi.start m fuel).run ⟨state', address, [], input⟩ with ⟨r', host'⟩
    rintro rfl hstart
    rcases r with e | ⟨inst, left⟩
    · exact ⟨rfl, hstart.state⟩
    · obtain ⟨hres, hcall⟩ := hrun (Wasmi.call inst left) host host' hstart
      revert hres hcall
      simp only
      rcases (Wasmi.call inst left).run host with ⟨r, h₂⟩
      rcases (Wasmi.call inst left).run host' with ⟨r', h₂'⟩
      rintro rfl hcall
      have hlogs : host.logs = host'.logs := hstart.logs
      have hlogs₂ : h₂.logs = h₂'.logs := hcall.logs
      rcases r with e | ⟨value, left'⟩
      · rcases Wasmi.callExport inst with _ | _ | _ | _
        · exact ⟨by rw [hlogs], hstart.state⟩
        · exact ⟨rfl, hcall.state⟩
        · exact ⟨rfl, hcall.state⟩
        · exact ⟨rfl, hstart.state⟩
      · rcases Wasmi.callExport inst with _ | _ | _ | _
        · exact ⟨by rw [hlogs], hstart.state⟩
        · exact ⟨congrArg (fun l => Except.ok (Run.mk (some value) l left')) hlogs₂, hcall.state⟩
        · exact ⟨congrArg (fun l => Except.ok (Run.mk none l left')) hlogs₂, hcall.state⟩
        · exact ⟨rfl, hstart.state⟩

/-- **Whatever storage writes to the contract keep, an invocation keeps**, also when it fails. -/
theorem state_execute {P : StateDB → Prop} {address : Address}
    (hset : ∀ s slot value, P s → P (s.setStorage address slot value))
    (code : List UInt8) {state : StateDB} (gasLimit : UInt64) (input : List UInt8)
    (hP : P state) : P (execute code state address gasLimit input).2 := by
  -- a run next to itself
  have hrun := run_related (R := fun s s' => s = s' ∧ P s)
    (fun s s' slot h => by rw [h.1])
    (fun s s' slot value h => ⟨by rw [h.1], hset s slot value h.2⟩)
    code (fuelFor gasLimit) input ⟨rfl, hP⟩
  rw [execute_eq]
  exact hrun.2.2

end WasmVm

end Ivory
