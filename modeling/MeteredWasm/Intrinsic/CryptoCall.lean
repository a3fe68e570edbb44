import MeteredWasm.Contract.Session
import MeteredWasm.Crypto.Recovery
import MeteredWasm.Gas.Price
import MeteredWasm.Wasm.Signature

/-!
# Keys and digests

Recovering public keys from signatures and hashing ranges of the memory, with or without comparing
the result to what the contract expects.
-/

namespace MeteredWasm

open Wasm (ValueType Signature Value)

/-- Calls about keys and digests. -/
inductive CryptoCall where
  | assertRecoverKey
  | recoverKey
  | assertSha256
  | sha256
deriving DecidableEq, Repr

namespace CryptoCall

/-- All of them, in the order of the catalog. -/
def all : List CryptoCall :=
  [assertRecoverKey, recoverKey, assertSha256, sha256]

/-- The name of a call. -/
def name : CryptoCall → String
  | assertRecoverKey => "assert_recover_key"
  | recoverKey => "recover_key"
  | assertSha256 => "assert_sha256"
  | sha256 => "sha256"

/-- The signature of a call. -/
def signature : CryptoCall → Signature
  | assertRecoverKey => ⟨[.i32, .i32, .i32, .i32, .i32], none⟩
  | recoverKey => ⟨[.i32, .i32, .i32, .i32, .i32], some .i32⟩
  | assertSha256 | sha256 => ⟨[.i32, .i32, .i32], none⟩

/-- What is charged: a flat price for a key, and for a digest a price by the length of its input. -/
def charges : CryptoCall → List Value → List Nat
  | assertSha256, [_, .i32 length, _] | sha256, [_, .i32 length, _] =>
    [Gas.sha256Base + length.toNat * Gas.sha256Byte]
  | _, _ => [Gas.recoverKey]

/-- The key that signed the digest at a position. -/
def keyAt {ω : Type} (digest start length : UInt32) : Session ω Crypto.PublicKey := do
  let digest ← Session.digestAt digest
  Session.check (Crypto.recoverKey digest (← Session.slice start length))

/-- The digest of a range. -/
def digestOf {ω : Type} (host : Host ω) (start length : UInt32) : Session ω Digest := do
  let data ← Session.slice start length
  return host.sha256 (← get).world data

/-- The result of a call whose charge is paid. -/
def run {ω : Type} (host : Host ω) : CryptoCall → List Value → Session ω (Option Value)
  | assertRecoverKey, [.i32 digest, .i32 start, .i32 length, .i32 key, .i32 keyLength] => do
    let recovered ← keyAt digest start length
    if (← Session.slice key keyLength) ≠ recovered.toList then throw .keyMismatch
    return none
  | recoverKey, [.i32 digest, .i32 start, .i32 length, .i32 key, .i32 keyLength] => do
    let recovered ← keyAt digest start length
    if keyLength.toNat < Crypto.publicKeyLength then throw (.keyBufferTooSmall keyLength.toNat)
    Session.write key recovered.toList
    return some (.i32 (UInt32.ofNat Crypto.publicKeyLength))
  | assertSha256, [.i32 start, .i32 length, .i32 expected] => do
    let hash ← digestOf host start length
    if hash ≠ (← Session.digestAt expected) then throw .hashMismatch
    return none
  | sha256, [.i32 start, .i32 length, .i32 result] => do
    Session.write result (← digestOf host start length).toBytes
    return none
  | _, _ => throw .unmatchedArguments

end CryptoCall

end MeteredWasm
