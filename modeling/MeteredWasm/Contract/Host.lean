import MeteredWasm.Account
import MeteredWasm.Crypto.Sha256

/-!
# The host

What the process around a running contract provides: storage, the chain, logs, value transfer and
calls into other contracts. Each callback gets the key of the invocation that makes it and may
change the state of the host's world.
-/

namespace MeteredWasm

/-- A call into another contract, as the calling one asks for it. -/
structure NestedCall where
  receiver : Address
  /-- The name of the action and its data. -/
  payload : List UInt8
  amount : UInt64
  storageDelegate : Int32
  userDelegate : Int32
  /-- The depth at which the called contract runs. -/
  depth : UInt32
deriving DecidableEq

/-- The callbacks, over worlds of type `ω`. A callback that is lent a buffer gives back the buffer
as it wants it, of the same length. -/
structure Host (ω : Type) where
  store : StateKey → (table : UInt64) → (key value : List UInt8) → StateM ω Unit
  /-- Copy a stored value into a buffer and tell its whole length, or a negative number if there is
  none. -/
  load : StateKey → (table : UInt64) → (key : List UInt8) → {length : Nat} →
    Vector UInt8 length → StateM ω (Int32 × Vector UInt8 length)
  hasKey : StateKey → (table : UInt64) → (key : List UInt8) → StateM ω Bool
  removeKey : StateKey → (table : UInt64) → (key : List UInt8) → StateM ω Unit
  hasTable : StateKey → (table : UInt64) → StateM ω Bool
  removeTable : StateKey → (table : UInt64) → StateM ω Unit
  time : StateKey → StateM ω UInt64
  height : StateKey → StateM ω UInt64
  /-- The simple and the full hash of the current block. -/
  hashes : StateKey → StateM ω (Digest × Digest)
  log : StateKey → (topics : List Digest) → (data : List UInt8) → StateM ω Unit
  transfer : StateKey → (receiver : Address) → (amount : UInt64) → StateM ω Unit
  call : StateKey → NestedCall → StateM ω Int32
  /-- Copy the result of the last nested call into a buffer and tell its whole length. -/
  callResult : StateKey → {length : Nat} → Vector UInt8 length →
    StateM ω (Int32 × Vector UInt8 length)
  setResult : StateKey → (result : List UInt8) → StateM ω Int32
  /-- The digest of a byte string. -/
  sha256 : ω → List UInt8 → Digest := fun _ => Crypto.Sha256.digest

end MeteredWasm
