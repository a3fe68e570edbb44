import MeteredWasm.Contract.Session
import MeteredWasm.Gas.Price
import MeteredWasm.Wasm.Signature

/-!
# The chain

The state of the chain, and logs.
-/

namespace MeteredWasm

open Wasm (ValueType Signature Value)

/-- The number of topics a log entry may have. -/
inductive TopicCount where
  | one
  | two
  | three
deriving DecidableEq, Repr

/-- As a number. -/
def TopicCount.toNat : TopicCount → Nat
  | .one => 1
  | .two => 2
  | .three => 3

/-- Calls about the chain. -/
inductive ChainCall where
  | time
  | height
  | hash
  | log (topics : TopicCount)
deriving DecidableEq, Repr

namespace ChainCall

/-- All of them, in the order of the catalog. -/
def all : List ChainCall :=
  [time, height, hash, log .one, log .two, log .three]

/-- The name of a call; that of a log counts the topics after the first. -/
def name : ChainCall → String
  | time => "current_time"
  | height => "current_height"
  | hash => "current_hash"
  | log .one => "log_0"
  | log .two => "log_1"
  | log .three => "log_2"

/-- The signature of a call. A log entry is a range and the positions of its topics. -/
def signature : ChainCall → Signature
  | time | height => ⟨[], some .i64⟩
  | hash => ⟨[.i32, .i32], none⟩
  | log topics => ⟨.i32 :: .i32 :: List.replicate topics.toNat .i32, none⟩

/-- What is charged: for a log entry by its number of topics and its length. -/
def charges : ChainCall → List Value → List Nat
  | log topics, _ :: .i32 length :: _ =>
    [Gas.logBase topics.toNat + length.toNat * Gas.logByte]
  | _, _ => [Gas.callBase]

/-- The digest at the position that an argument gives. -/
def topic {ω : Type} : Value → Session ω Digest
  | .i32 start => Session.digestAt start
  | _ => throw .unmatchedArguments

/-- The result of a call whose charge is paid. -/
def run {ω : Type} (host : Host ω) : ChainCall → List Value → Session ω (Option Value)
  | time, [] => do return some (.i64 (← Session.callback host.time))
  | height, [] => do return some (.i64 (← Session.callback host.height))
  | hash, [.i32 simple, .i32 full] => do
    let (simpleHash, fullHash) ← Session.callback host.hashes
    Session.write simple simpleHash.toBytes
    Session.write full fullHash.toBytes
    return none
  | log _, .i32 start :: .i32 length :: positions => do
    let topics ← positions.mapM topic
    let data ← Session.slice start length
    Session.callback fun key => host.log key topics data
    return none
  | _, _ => throw .unmatchedArguments

end ChainCall

end MeteredWasm
