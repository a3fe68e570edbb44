import MeteredWasm.Contract.Session
import MeteredWasm.Gas.Price
import MeteredWasm.Wasm.Signature

/-!
# Storage

The storage of a contract: values under byte keys, in numbered tables.
-/

namespace MeteredWasm

open Wasm (ValueType Signature Value)

/-- Calls on the storage. -/
inductive StorageCall where
  | store
  | load
  | hasKey
  | removeKey
  | hasTable
  | removeTable
deriving DecidableEq, Repr

namespace StorageCall

/-- All of them, in the order of the catalog. -/
def all : List StorageCall :=
  [store, load, hasKey, removeKey, hasTable, removeTable]

/-- The name of a call. -/
def name : StorageCall → String
  | store => "db_store"
  | load => "db_load"
  | hasKey => "db_has_key"
  | removeKey => "db_remove_key"
  | hasTable => "db_has_table"
  | removeTable => "db_remove_table"

/-- The signature of a call: a table, the range of a key, and the range of a value or a buffer. -/
def signature : StorageCall → Signature
  | store => ⟨[.i64, .i32, .i32, .i32, .i32], none⟩
  | load => ⟨[.i64, .i32, .i32, .i32, .i32], some .i32⟩
  | hasKey => ⟨[.i64, .i32, .i32], some .i32⟩
  | removeKey => ⟨[.i64, .i32, .i32], none⟩
  | hasTable => ⟨[.i64], some .i32⟩
  | removeTable => ⟨[.i64], none⟩

/-- What is charged: for storing and loading by the length of the value or the buffer. -/
def charges : StorageCall → List Value → List Nat
  | store, [_, _, _, _, .i32 length] => [Gas.storeBase + length.toNat * Gas.storeByte]
  | load, [_, _, _, _, .i32 length] => [Gas.loadBase + length.toNat * Gas.loadByte]
  | removeKey, _ | removeTable, _ => [Gas.remove]
  | _, _ => [Gas.query]

/-- The result of a call whose charge is paid. -/
def run {ω : Type} (host : Host ω) : StorageCall → List Value → Session ω (Option Value)
  | store, [.i64 table, .i32 key, .i32 keyLength, .i32 value, .i32 valueLength] => do
    let key ← Session.slice key keyLength
    let value ← Session.slice value valueLength
    Session.callback fun stateKey => host.store stateKey table key value
    return none
  | load, [.i64 table, .i32 key, .i32 keyLength, .i32 start, .i32 length] => do
    let key ← Session.slice key keyLength
    return some (.ofInt32 (← Session.lend start length fun stateKey buffer =>
      host.load stateKey table key buffer))
  | hasKey, [.i64 table, .i32 key, .i32 keyLength] => do
    let key ← Session.slice key keyLength
    return some (.ofBool (← Session.callback fun stateKey => host.hasKey stateKey table key))
  | removeKey, [.i64 table, .i32 key, .i32 keyLength] => do
    let key ← Session.slice key keyLength
    Session.callback fun stateKey => host.removeKey stateKey table key
    return none
  | hasTable, [.i64 table] => do
    return some (.ofBool (← Session.callback fun stateKey => host.hasTable stateKey table))
  | removeTable, [.i64 table] => do
    Session.callback fun stateKey => host.removeTable stateKey table
    return none
  | _, _ => throw .unmatchedArguments

end StorageCall

end MeteredWasm
