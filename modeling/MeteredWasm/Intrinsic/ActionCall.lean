import MeteredWasm.Contract.Session
import MeteredWasm.Gas.Price
import MeteredWasm.Wasm.Signature

/-!
# The running action

What a contract can ask about the action it runs and the parties to it, how it moves value and calls
other contracts, and the charge that instrumented code makes for itself.
-/

namespace MeteredWasm

open Wasm (ValueType Signature Value)

/-- The parties to an invocation. -/
inductive Party where
  | sender
  | receiver
  | owner
  | user
deriving DecidableEq, Repr

/-- The address of a party. -/
def Party.address (i : Invocation) : Party → Address
  | .sender => i.sender
  | .receiver => i.receiver
  | .owner => i.owner
  | .user => i.user

/-- Calls about the running action. -/
inductive ActionCall where
  | useGas
  | readData
  | dataSize
  | address (party : Party)
  | transfer
  | amount
  | call
  | callResult
  | setResult
deriving DecidableEq, Repr

namespace ActionCall

/-- All of them, in the order of the catalog. -/
def all : List ActionCall :=
  [useGas, readData, dataSize, address .sender, address .receiver, address .owner, address .user,
    transfer, amount, call, callResult, setResult]

/-- The name of a call. -/
def name : ActionCall → String
  | useGas => "use_gas"
  | readData => "read_action_data"
  | dataSize => "action_data_size"
  | address .sender => "get_from"
  | address .receiver => "get_to"
  | address .owner => "get_owner"
  | address .user => "get_user"
  | transfer => "transfer"
  | amount => "get_amount"
  | call => "call_action"
  | callResult => "call_result"
  | setResult => "set_result"

/-- The signature of a call. A range of the memory is a position and a length. -/
def signature : ActionCall → Signature
  | useGas => ⟨[.i64], none⟩
  | readData => ⟨[.i32, .i32], some .i32⟩
  | dataSize => ⟨[], some .i32⟩
  | address _ => ⟨[.i32, .i32], none⟩
  | transfer => ⟨[.i32, .i32, .i64], none⟩
  | amount => ⟨[], some .i64⟩
  | call => ⟨[.i32, .i32, .i32, .i32, .i64, .i32, .i32], some .i32⟩
  | callResult => ⟨[.i32, .i32], some .i32⟩
  | setResult => ⟨[.i32, .i32], some .i32⟩

/-- What is charged, one amount after the other. Reading the data costs its whole size, however
short the buffer, unless only the size is asked for. -/
def charges (action : Action) : ActionCall → List Value → List Nat
  | useGas, [.i64 cost] => [cost.toNat]
  | readData, [_, .i32 length] =>
    if length = 0 then [Gas.callBase]
    else [Gas.callBase, action.data.length * Gas.memoryByte]
  | address _, _ => [Gas.callBase + Address.length * Gas.memoryByte]
  | transfer, _ => [Gas.transfer]
  | _, _ => [Gas.callBase]

/-- The address in a range of the memory, which must have the length of an address. -/
def readAddress {ω : Type} (start length : UInt32) : Session ω Address := do
  if length.toNat ≠ Address.length then throw .addressArgument
  Session.check (Address.ofBytes (← Session.slice start length))

/-- The result of a call whose charges are paid. -/
def run {ω : Type} (host : Host ω) : ActionCall → List Value → Session ω (Option Value)
  | useGas, [.i64 _] => return none
  | readData, [.i32 start, .i32 length] => do
    let data := (← get).action.data
    if length = 0 then return some (.i32 (UInt32.ofNat data.length))
    let copied := data.take length.toNat
    Session.write start copied
    return some (.i32 (UInt32.ofNat copied.length))
  | dataSize, [] => do
    return some (.i32 (UInt32.ofNat (← get).action.data.length))
  | address party, [.i32 start, .i32 length] => do
    let bytes := (party.address (← get).invocation).toBytes
    Session.write start (bytes.take length.toNat)
    return none
  | transfer, [.i32 start, .i32 length, .i64 value] => do
    let receiver ← readAddress start length
    Session.callback fun key => host.transfer key receiver value
    return none
  | amount, [] => do
    return some (.i64 (← get).invocation.amount)
  | call, [.i32 start, .i32 length, .i32 payloadStart, .i32 payloadLength, .i64 value,
      .i32 storage, .i32 user] => do
    let receiver ← readAddress start length
    let c ← get
    let depth := c.invocation.depth + 1
    if c.config.maxCallDepth < depth then throw (.callDepth depth c.config.maxCallDepth)
    let payload ← Session.slice payloadStart payloadLength
    let nested : NestedCall := ⟨receiver, payload, value, storage.toInt32, user.toInt32, depth⟩
    return some (.ofInt32 (← Session.callback fun key => host.call key nested))
  | callResult, [.i32 start, .i32 length] => do
    return some (.ofInt32 (← Session.lend start length fun key buffer =>
      host.callResult key buffer))
  | setResult, [.i32 start, .i32 length] => do
    let result ← Session.slice start length
    return some (.ofInt32 (← Session.callback fun key => host.setResult key result))
  | _, _ => throw .unmatchedArguments

end ActionCall

end MeteredWasm
