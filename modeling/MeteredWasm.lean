import MeteredWasm.Account
import MeteredWasm.Action
import MeteredWasm.CommandLine.Arguments
import MeteredWasm.CommandLine.Command
import MeteredWasm.Contract.Host
import MeteredWasm.Contract.Session
import MeteredWasm.Crypto.Recovery
import MeteredWasm.Crypto.Secp256k1
import MeteredWasm.Crypto.Sha256
import MeteredWasm.Endian
import MeteredWasm.Fault
import MeteredWasm.Gas.Price
import MeteredWasm.Intrinsic.ActionCall
import MeteredWasm.Intrinsic.AssertionCall
import MeteredWasm.Intrinsic.Catalog
import MeteredWasm.Intrinsic.ChainCall
import MeteredWasm.Intrinsic.ConsoleCall
import MeteredWasm.Intrinsic.CryptoCall
import MeteredWasm.Intrinsic.Linking
import MeteredWasm.Intrinsic.MemoryCall
import MeteredWasm.Intrinsic.StorageCall
import MeteredWasm.Intrinsic.WideCall
import MeteredWasm.Main
import MeteredWasm.Memory.Linear
import MeteredWasm.Metering.Charging
import MeteredWasm.Metering.FloatCalls
import MeteredWasm.Metering.InitialMemory
import MeteredWasm.Metering.Injection
import MeteredWasm.Metering.Instrument
import MeteredWasm.Name
import MeteredWasm.Sandbox.Loading
import MeteredWasm.Sandbox.Running
import MeteredWasm.Sandbox.State
import MeteredWasm.Proofs.Wasm.Leb
import MeteredWasm.SoftFloat.Arithmetic
import MeteredWasm.SoftFloat.Format
import MeteredWasm.SoftFloat.Integral
import MeteredWasm.SoftFloat.Operator
import MeteredWasm.SoftFloat.Order
import MeteredWasm.SoftFloat.Rounding
import MeteredWasm.Text.Hex
import MeteredWasm.Text.Scientific
import MeteredWasm.Text.Utf8
import MeteredWasm.Wasm.Decode
import MeteredWasm.Wasm.Encode
import MeteredWasm.Wasm.Instruction
import MeteredWasm.Wasm.Layout
import MeteredWasm.Wasm.Leb
import MeteredWasm.Wasm.Module
import MeteredWasm.Wasm.Parser
import MeteredWasm.Wasm.Signature
import MeteredWasm.Wasm.Typing
import MeteredWasm.Wasm.Validity
import MeteredWasm.Wide.Arithmetic
import MeteredWasm.Proofs.Wasm.Reading
import MeteredWasm.Proofs.Wasm.Rewriting
import MeteredWasm.Proofs.Wasm.Pieces
import MeteredWasm.Proofs.Wasm.Grammar
import MeteredWasm.Proofs.Endian
import MeteredWasm.Proofs.Wasm.Entries
import MeteredWasm.Proofs.Wasm.Bodies
import MeteredWasm.Proofs.Checks
import MeteredWasm.Proofs.Wasm.Valid
import MeteredWasm.Proofs.Wasm.RoundTrip
import MeteredWasm.Proofs.Metering.Injection
import MeteredWasm.Proofs.SoftFloat.Opcodes
import MeteredWasm.Proofs.SoftFloat.Values
import MeteredWasm.Proofs.SoftFloat.Nearest
import MeteredWasm.Proofs.SoftFloat.Rounding
import MeteredWasm.Proofs.SoftFloat.Addition
import MeteredWasm.Proofs.SoftFloat.Multiplication
import MeteredWasm.Proofs.SoftFloat.Division
import MeteredWasm.Proofs.SoftFloat.Words
import MeteredWasm.Proofs.SoftFloat.SquareRoot
import MeteredWasm.Proofs.SoftFloat.Widening
import MeteredWasm.Proofs.SoftFloat.Conversion
import MeteredWasm.Proofs.SoftFloat.IntegralValues
import MeteredWasm.Proofs.SoftFloat.Truncation
import MeteredWasm.Proofs.SoftFloat.Comparison
import MeteredWasm.Proofs.Wasm.WellTyped
import MeteredWasm.Proofs.Wasm.Splitting
import MeteredWasm.Proofs.Metering.FloatPass
import MeteredWasm.Proofs.Metering.Outcome
import MeteredWasm.Proofs.Metering.OtherLimits
import MeteredWasm.Proofs.Metering.Clamping
import MeteredWasm.Proofs.Metering.Charges
import MeteredWasm.Proofs.Metering.Withdrawal
import MeteredWasm.Proofs.Metering.MeteredFlow
import MeteredWasm.Proofs.Metering.GasExactness
import MeteredWasm.Proofs.Metering.Typing
import MeteredWasm.Proofs.Metering.IndexSpace
import MeteredWasm.Proofs.Metering.MeteredCalls
import MeteredWasm.Proofs.Metering.Lockstep
import MeteredWasm.Proofs.Metering.Completion
import MeteredWasm.Proofs.Metering.Recursion
import MeteredWasm.Proofs.Contract.CallPaths
import MeteredWasm.Proofs.Contract.Callbacks
import MeteredWasm.Proofs.Contract.Steps
import MeteredWasm.Proofs.Intrinsic.Steps
import MeteredWasm.Proofs.Intrinsic.Tariff
import MeteredWasm.Proofs.Intrinsic.Exhaustion
import MeteredWasm.Proofs.Intrinsic.Effects
import MeteredWasm.Proofs.Intrinsic.Linking
import MeteredWasm.Proofs.Sandbox.Embedding
import MeteredWasm.Proofs.Sandbox.Phases
import MeteredWasm.Proofs.Sandbox.Isolation
import MeteredWasm.Proofs.Sandbox.History
import MeteredWasm.Proofs.Sandbox.Namespaces
import MeteredWasm.Proofs.Memory.Contents
import MeteredWasm.Proofs.Memory.Refinement
import MeteredWasm.Proofs.Sandbox.Caching
import MeteredWasm.Proofs.Sandbox.MemoryLimits
import MeteredWasm.Proofs.Intrinsic.Typing
import MeteredWasm.Proofs.Sandbox.BuildFailures
import MeteredWasm.Proofs.Sandbox.EarlyEnds
import MeteredWasm.Proofs.Sandbox.CallDepth
import MeteredWasm.Proofs.SoftFloat.SignallingNaNs
import MeteredWasm.Proofs.SoftFloat.RoundTrips
import MeteredWasm.Proofs.Metering.InitialImage
import MeteredWasm.Proofs.Names
import MeteredWasm.Proofs.Intrinsic.MemoryRoutines
import MeteredWasm.Proofs.Metering.Refusals
import MeteredWasm.Proofs.Wide.Integers
import MeteredWasm.Proofs.Intrinsic.WideIntegers
import MeteredWasm.Proofs.Intrinsic.Outputs
import MeteredWasm.Proofs.Intrinsic.AssertionMessages
import MeteredWasm.Proofs.CommandLine.NameConversion
import MeteredWasm.Proofs.SoftFloat.Checked.Words
import MeteredWasm.Proofs.SoftFloat.Checked.Encodings
import MeteredWasm.Proofs.SoftFloat.Checked.Rounding
import MeteredWasm.Proofs.SoftFloat.Checked.Arithmetic
import MeteredWasm.Proofs.SoftFloat.Checked.SquareRoot
import MeteredWasm.Proofs.SoftFloat.Checked.Integral
import MeteredWasm.Proofs.SoftFloat.Checked.Operations
