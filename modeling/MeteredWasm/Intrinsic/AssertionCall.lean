import MeteredWasm.Contract.Session
import MeteredWasm.Gas.Price
import MeteredWasm.Wasm.Signature

/-!
# Assertions and exit

How a contract stops itself: by giving up, by an assertion that does not hold, or by exiting, which
counts as a normal end.
-/

namespace MeteredWasm

open Wasm (ValueType Signature Value)

/-- Calls that may stop the contract. -/
inductive AssertionCall where
  | abort
  | zeroTerminated
  | message
  | code
  | exit
deriving DecidableEq, Repr

namespace AssertionCall

/-- All of them, in the order of the catalog. -/
def all : List AssertionCall :=
  [abort, zeroTerminated, message, code, exit]

/-- The name of a call. -/
def name : AssertionCall → String
  | abort => "abort"
  | zeroTerminated => "ftl_assert"
  | message => "ftl_assert_message"
  | code => "ftl_assert_code"
  | exit => "ftl_exit"

/-- The signature of a call; an assertion's first argument is its condition. -/
def signature : AssertionCall → Signature
  | abort => ⟨[], none⟩
  | zeroTerminated => ⟨[.i32, .i32], none⟩
  | message => ⟨[.i32, .i32, .i32], none⟩
  | code => ⟨[.i32, .i64], none⟩
  | exit => ⟨[.i32], none⟩

/-- What is charged. Giving up is free. -/
def charges : AssertionCall → List Nat
  | abort => []
  | _ => [Gas.callBase]

/-- The fault of an assertion that does not hold. Of a message only the first bytes are kept; the
limit for a message of known length counts modulo `2 ^ 32`, as lengths do. -/
def run {ω : Type} : AssertionCall → List Value → Session ω (Option Value)
  | abort, [] => throw .aborted
  | zeroTerminated, [.i32 condition, .i32 start] => do
    if condition = 0 then
      let c ← get
      let text ← Session.trap
        (c.memory.cString start.toNat (some c.config.maxAssertMessage.toNat))
      throw (.assertionMessage text)
    return none
  | message, [.i32 condition, .i32 start, .i32 length] => do
    if condition = 0 then
      let limit := (← get).config.maxAssertMessage.toUInt32
      throw (.assertionMessage (← Session.slice start (min length limit)))
    return none
  | code, [.i32 condition, .i64 number] => do
    if condition = 0 then throw (.assertionCode number)
    return none
  | exit, [.i32 status] => throw (.exit status.toInt32)
  | _, _ => throw .unmatchedArguments

end AssertionCall

end MeteredWasm
