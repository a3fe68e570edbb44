import MeteredWasm.Intrinsic.ActionCall
import MeteredWasm.Intrinsic.AssertionCall
import MeteredWasm.Intrinsic.ChainCall
import MeteredWasm.Intrinsic.ConsoleCall
import MeteredWasm.Intrinsic.CryptoCall
import MeteredWasm.Intrinsic.MemoryCall
import MeteredWasm.Intrinsic.StorageCall
import MeteredWasm.Intrinsic.WideCall
import MeteredWasm.Metering.Injection
import MeteredWasm.SoftFloat.Operator

/-!
# The catalog of intrinsics

The functions that modules can import, each with its name, its signature and its effect. What
contracts import is in one namespace; what instrumentation imports is in another, out of their
reach. Whatever an intrinsic charges, it charges before it does anything else.
-/

namespace MeteredWasm

open Wasm (Signature Value)

/-- A function of the host. -/
inductive Intrinsic where
  | action (op : ActionCall)
  | wide (op : WideCall)
  | console (op : ConsoleCall)
  | assertion (op : AssertionCall)
  | crypto (op : CryptoCall)
  | storage (op : StorageCall)
  | memory (op : MemoryCall)
  | float (op : SoftFloat.Operator)
  | chain (op : ChainCall)
deriving DecidableEq, Repr

namespace Intrinsic

/-- The namespace from which contracts import. -/
def contractNamespace : String := "env"

/-- Every intrinsic, in order. -/
def catalog : List Intrinsic :=
  ActionCall.all.map action ++ WideCall.all.map wide ++ ConsoleCall.all.map console ++
    AssertionCall.all.map assertion ++ CryptoCall.all.map crypto ++ StorageCall.all.map storage ++
    MemoryCall.all.map memory ++ SoftFloat.Operator.all.map float ++ ChainCall.all.map chain

/-- Is the intrinsic for instrumented code only? -/
def isInjected : Intrinsic → Bool
  | .action .useGas | .float _ => true
  | _ => false

/-- The namespace of an intrinsic. -/
def namespace_ (i : Intrinsic) : String :=
  if i.isInjected then Metering.injectedNamespace else contractNamespace

/-- The name of an intrinsic. -/
def name : Intrinsic → String
  | .action op => op.name
  | .wide op => op.name
  | .console op => op.symbol
  | .assertion op => op.name
  | .crypto op => op.name
  | .storage op => op.name
  | .memory op => op.name
  | .float op => op.symbol
  | .chain op => op.name

/-- The signature of an intrinsic. -/
def signature : Intrinsic → Signature
  | .action op => op.signature
  | .wide op => op.signature
  | .console op => op.signature
  | .assertion op => op.signature
  | .crypto op => op.signature
  | .storage op => op.signature
  | .memory op => op.signature
  | .float op => op.signature
  | .chain op => op.signature

/-- What an intrinsic charges, one amount after the other. Printing and float operations are
free: these were charged as the instructions they replace. -/
def charges (action : Action) (args : List Value) : Intrinsic → List Nat
  | .action op => op.charges action args
  | .wide op => op.charges
  | .console _ => []
  | .assertion op => op.charges
  | .crypto op => op.charges args
  | .storage op => op.charges args
  | .memory op => op.charges args
  | .float _ => []
  | .chain op => op.charges args

/-- What an intrinsic does once its charges are paid. -/
def run {ω : Type} (host : Host ω) (args : List Value) :
    Intrinsic → Session ω (Option Value)
  | .action op => op.run host args
  | .wide op => op.run args
  | .console op => op.run args
  | .assertion op => op.run args
  | .crypto op => op.run host args
  | .storage op => op.run host args
  | .memory op => op.run args
  | .float op => do return some (← Session.check (op.eval args))
  | .chain op => op.run host args

/-- Call an intrinsic: check the types of the arguments, charge, and run. -/
def call {ω : Type} (host : Host ω) (i : Intrinsic) (args : List Value) :
    Session ω (Option Value) := do
  if !i.signature.accepts args then
    throw (.argumentTypes i.namespace_ i.name i.signature)
  (i.charges (← get).action args).forM Session.charge
  i.run host args

/-- Find an intrinsic by its namespace and its name. -/
def find? (namespace_ name : String) : Option Intrinsic :=
  catalog.find? fun i => i.namespace_ == namespace_ && i.name == name

end Intrinsic

end MeteredWasm
