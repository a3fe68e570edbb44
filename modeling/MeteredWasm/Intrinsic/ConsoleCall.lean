import MeteredWasm.Contract.Session
import MeteredWasm.Text.Scientific
import MeteredWasm.Wasm.Signature
import MeteredWasm.Wide.Arithmetic

/-!
# Printing

Output for whoever debugs a contract. It is kept in the context and costs nothing.
-/

namespace MeteredWasm

open Wasm (ValueType Signature Value)

/-- Calls that print. -/
inductive ConsoleCall where
  | zeroTerminated
  | range
  | signed
  | unsigned
  | single
  | double
  | quad
  | name
  | hex
deriving DecidableEq, Repr

namespace ConsoleCall

/-- All of them, in the order of the catalog. -/
def all : List ConsoleCall :=
  [zeroTerminated, range, signed, unsigned, single, double, quad, name, hex]

/-- The name under which a call is imported. -/
def symbol : ConsoleCall → String
  | zeroTerminated => "prints"
  | range => "prints_l"
  | signed => "printi"
  | unsigned => "printui"
  | single => "printsf"
  | double => "printdf"
  | quad => "printqf"
  | name => "printn"
  | hex => "printhex"

/-- The signature of a call. -/
def signature : ConsoleCall → Signature
  | zeroTerminated | quad => ⟨[.i32], none⟩
  | range | hex => ⟨[.i32, .i32], none⟩
  | signed | unsigned | name => ⟨[.i64], none⟩
  | single => ⟨[.f32], none⟩
  | double => ⟨[.f64], none⟩

/-- The decimals printed of a single float, which its digits carry. -/
def singleDecimals : Nat := 6

/-- The decimals printed of a double float, and of a quadruple one, which is rounded to double. -/
def doubleDecimals : Nat := 15

/-- What a call prints. -/
def text {ω : Type} : ConsoleCall → List Value → Session ω String
  | zeroTerminated, [.i32 start] => do
    return Text.Utf8.decodeLossy (← Session.trap ((← get).memory.cString start.toNat none))
  | range, [.i32 start, .i32 length] => do
    return Text.Utf8.decodeLossy (← Session.slice start length)
  | signed, [.i64 bits] => return toString bits.toInt64.toInt
  | unsigned, [.i64 bits] => return toString bits.toNat
  | single, [.f32 bits] =>
    let widened := SoftFloat.convert SoftFloat.binary32 SoftFloat.binary64 bits.toNat
    return Text.scientific (UInt64.ofNat widened) singleDecimals
  | double, [.f64 bits] => return Text.scientific bits doubleDecimals
  | quad, [.i32 start] => do
    let bits ← Session.trap ((← get).memory.load start.toNat 16)
    return Text.scientific (Wide.quadToDouble (Wide.ofBits bits)) doubleDecimals
  | name, [.i64 bits] => return (Name.mk bits).text
  | hex, [.i32 start, .i32 length] => do
    return Text.hexBytes (← Session.slice start length)
  | _, _ => throw .unmatchedArguments

/-- Print. -/
def run {ω : Type} (op : ConsoleCall) (args : List Value) : Session ω (Option Value) := do
  Session.print (← op.text args)
  return none

end ConsoleCall

end MeteredWasm
